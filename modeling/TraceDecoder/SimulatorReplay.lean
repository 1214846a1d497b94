import TraceDecoder.LogLines
import TraceDecoder.SimulatorLookahead

/-!
# Replaying a simulator log

The calls of `NextInstruction` report the records of a log one by one, with the flags that the next
and the previous record of the same core ask for. They go wrong where the reading loses or finds a
record in the first line, where what was in the memory of the object is taken for a record that was
looked up, behind a `c.ebreak` of RV32, and where an address of RV32 wraps round.
-/

namespace TraceDecoder

open Isa LogRecord

namespace Simulator

structure Reported (xlen : Xlen) (done rest : List LogRecord) (r : LogRecord) (info : Instruction) :
    Prop where
  address : info.address = r.pc
  coreId : info.coreId = r.coreId.toNat
  taken : ∀ offset, flow r.inst xlen = .branch offset → xlen.wrap (r.pc + offset) ≠
    xlen.wrap r.behind → (info.brFlags = .taken ↔ ∃ n, nextOf r.coreId rest = some n ∧ n.pc =
      xlen.wrap (r.pc + offset))
  notTaken : ∀ offset, flow r.inst xlen = .branch offset → xlen.wrap (r.pc + offset) ≠
    xlen.wrap r.behind → (info.brFlags = .notTaken ↔ ∃ n, nextOf r.coreId rest = some n ∧ n.pc =
      xlen.wrap r.behind)
  interrupt : info.CRFlag &&& CRFlag.isInterrupt ≠ 0 ↔
    ∃ q, lastOf r.coreId done = some q ∧ ¬ (flow q.inst xlen).Admits xlen q.pc q.behind r.pc

/-- **A replay**: the calls report the records in their order, each once, and
then the end of the file. -/
def Replays (xlen : Xlen) (rs : List LogRecord) (results : List Simulator.Result) : Prop :=
  ∀ i result, results[i]? = some result → match rs[i]? with
    | none => result = { rc := .eof }
    | some r => ∃ info src, result = ⟨.ok, some info, some src⟩ ∧
        Reported xlen (rs.take i) (rs.drop (i + 1)) r info

variable {es : List (Option LogRecord)} {xlen : Xlen}

/-! ### One call -/

/-- Records of cores that there are, at instructions of the program image. -/
structure Replayable (program : Program) (rs : List LogRecord) : Prop where
  core : ∀ r ∈ rs, r.coreId.toNat < DQR_MAXCORES
  pc_ne : ∀ r ∈ rs, r.pc ≠ 0
  image : ∀ r ∈ rs, (program.image.word r.pc).isSome
  fetchable : ∀ r ∈ rs, Fetchable r.inst

/-- Each `c.ebreak` of RV32 is followed on its core by the instruction behind it. -/
def BreaksPassed (xlen : Xlen) (rs : List LogRecord) : Prop :=
  ∀ i q, rs[i]? = some q → ∀ r ∈ nextOf q.coreId (rs.drop (i + 1)), xlen = .rv32 → q.inst = 0x9002 →
    r.pc = q.behind

def NoneWraps (xlen : Xlen) (rs : List LogRecord) : Prop :=
  ∀ i q, rs[i]? = some q → ∀ r ∈ nextOf q.coreId (rs.drop (i + 1)),
    (flow q.inst xlen).Unwrapped xlen q.pc q.behind r.pc

/-- The object when `k` records have been reported. -/
structure At (xlen : Xlen) (program : Program) (es : List (Option LogRecord)) (k : ℕ)
    (s : Simulator) : Prop where
  rows : List.Forall₂ SRec.Says s.lines es
  program : s.program = program
  archSize : s.archSize = xlen.archSize
  left : (es.drop s.nextLine).filterMap id = (es.filterMap id).drop k
  look : s.haveLookaheadSrec = true → s.lookaheadSrec.line = s.nextLine →
    s.nextLine < s.lines.length → ∃ e, es[s.nextLine]? = some (some e) ∧
      s.lookaheadSrec.entry = some e
  enterISR : ∀ c, s.enterISR c = 0 ∨ s.enterISR c = CRFlag.isInterrupt
  interrupted : ∀ c, s.enterISR c ≠ 0 ↔ Interrupted xlen c ((es.filterMap id).take k)
    ((es.filterMap id).drop k)

variable {program : Program} {k : ℕ} {s : Simulator}

theorem At.current (h : At xlen program es k s) (hlt : s.nextLine < s.lines.length)
    (nextSrec : SRec) :
    match (es.filterMap id).drop k with
    | [] => current nextSrec s = .error .eof
    | r :: rest => ∃ srec l, current nextSrec s = .ok srec ∧ ReadAt l r srec ∧
        (es.drop (l + 1)).filterMap id = rest := by
  rw [← h.left]
  by_cases hlook : s.haveLookaheadSrec ∧ s.nextLine = s.lookaheadSrec.line
  · obtain ⟨e, he, hentry⟩ := h.look hlook.1 hlook.2.symm hlt
    obtain ⟨hlength, hget⟩ := List.getElem?_eq_some_iff.mp he
    rw [List.drop_eq_getElem_cons hlength, hget]
    exact ⟨_, s.nextLine, if_pos hlook, ⟨hlook.2.symm, hentry⟩, rfl⟩
  · have hread := readSrec_says h.rows none s.nextLine s.lines.length nextSrec
    have hnext := nextEntry_none s.nextLine (es.drop s.nextLine)
    rw [Simulator.current, if_neg hlook]
    cases hentry : nextEntry none s.nextLine (es.drop s.nextLine) with
    | none =>
      rw [hentry] at hread hnext
      rw [hnext]
      exact hread
    | some x =>
      obtain ⟨l, e⟩ := x
      rw [hentry] at hread hnext
      obtain ⟨srec, hrun, hat⟩ := hread
      obtain ⟨hle, heq⟩ := hnext
      rw [heq]
      refine ⟨srec, l, hrun, hat, ?_⟩
      rw [List.drop_drop, show s.nextLine + (l + 1 - s.nextLine) = l + 1 by omega]

theorem At.lookUp (h : At xlen program es k s) {r : LogRecord} {rest : List LogRecord} {l : ℕ}
    {srec : SRec} (hr : ReadAt l r srec) (hrest : (es.drop (l + 1)).filterMap id = rest) :
    ∃ found look, lookUp s srec =
      { s with nextLine := l + 1, haveLookaheadSrec := found, lookaheadSrec := look } ∧
      (if found then look.pc else 0) = lookahead r.coreId rest ∧
      (found = true → look.line = l + 1 → ∃ e, es[l + 1]? = some (some e) ∧ look.entry =
        some e) := by
  have hcore : r.coreId = srec.coreId := by rw [hr.fields.2.2]
  have hread := readSrec_says h.rows (some srec.coreId) (l + 1) s.lines.length s.lookaheadSrec
  have hnext := nextEntry_some srec.coreId (l + 1) (es.drop (l + 1))
  rw [hcore, lookahead]
  rw [hrest] at hnext
  cases hentry : nextEntry (some srec.coreId) (l + 1) (es.drop (l + 1)) with
  | none =>
    rw [hentry] at hread hnext
    have hrun : Simulator.lookUp s srec =
        { s with nextLine := l + 1, haveLookaheadSrec := false } := by
      simp only [Simulator.lookUp, hr.line, hread]
    rw [hrun, hnext]
    exact ⟨_, _, rfl, rfl, nofun⟩
  | some x =>
    obtain ⟨k, n⟩ := x
    rw [hentry] at hread hnext
    obtain ⟨look, hlook, hat⟩ := hread
    obtain ⟨hnext, -, hhead⟩ := hnext
    have hrun : Simulator.lookUp s srec =
        { s with nextLine := l + 1, haveLookaheadSrec := true, lookaheadSrec := look } := by
      simp only [Simulator.lookUp, hr.line, hlook]
    rw [hrun, hnext]
    refine ⟨_, _, rfl, by rw [hat.fields.2.2]; rfl, fun _ hline => ⟨n, ?_, hat.entry⟩⟩
    rw [← List.head?_drop]
    exact hhead (hat.line.symm.trans hline)

/-- Behind the last record, a call finds the end of the file. -/
theorem At.eof (h : At xlen program es k s) (hend : (es.filterMap id).drop k = [])
    (nextSrec : SRec) :
    NextInstruction nextSrec s = ({ rc := .eof }, s) := by
  rw [NextInstruction]
  by_cases hlt : s.nextLine < s.lines.length
  · have hcurrent := h.current hlt nextSrec
    rw [hend] at hcurrent
    rw [if_neg (by omega), hcurrent]
  · rw [if_pos (by omega)]

theorem At.lt_length (h : At xlen program es k s) {r : LogRecord} {rest : List LogRecord}
    (hdrop : (es.filterMap id).drop k = r :: rest) : s.nextLine < s.lines.length := by
  by_contra hlt
  have hleft := h.left
  rw [List.drop_of_length_le (by rw [← h.rows.length_eq]; omega), hdrop] at hleft
  cases hleft

theorem At.succ (h : At xlen program es k s) {r : LogRecord} {rest : List LogRecord}
    (hdrop : (es.filterMap id).drop k = r :: rest)
    {l : ℕ} (hrest : (es.drop (l + 1)).filterMap id = rest) {s' : Simulator}
    (hlines : s'.lines = s.lines)
    (hprogram : s'.program = s.program) (harch : s'.archSize = s.archSize)
    (hnext : s'.nextLine = l + 1)
    (hlook : s'.haveLookaheadSrec = true → s'.lookaheadSrec.line = l + 1 →
      ∃ e, es[l + 1]? = some (some e) ∧ s'.lookaheadSrec.entry = some e) {interrupt : Bool}
    (hisr : s'.enterISR = Function.update s.enterISR r.coreId
    (if interrupt then CRFlag.isInterrupt else 0))
    (hinterrupt : interrupt = true ↔ ∃ n, nextOf r.coreId rest = some n ∧
      ¬ (flow r.inst xlen).Admits xlen r.pc r.behind n.pc) :
    At xlen program es (k + 1) s' where
  rows := by rw [hlines]; exact h.rows
  program := hprogram.trans h.program
  archSize := harch.trans h.archSize
  left := by rw [hnext, hrest, ← List.drop_drop, hdrop]; rfl
  look hhave hline _ := by
    rw [hnext] at hline ⊢
    exact hlook hhave hline
  enterISR c := by
    rw [hisr]
    by_cases hc : c = r.coreId
    · subst hc
      rw [Function.update_self]
      cases interrupt with
      | true => exact .inr rfl
      | false => exact .inl rfl
    · rw [Function.update_of_ne hc]
      exact h.enterISR c
  interrupted c := by
    have hget : (es.filterMap id)[k]? = some r := by rw [← List.head?_drop, hdrop]; rfl
    have htake : (es.filterMap id).take (k + 1) = (es.filterMap id).take k ++ [r] := by
      rw [List.take_add_one, hget]; rfl
    have hdrop' : (es.filterMap id).drop (k + 1) = rest := by rw [← List.drop_drop, hdrop]; rfl
    rw [hisr, htake, hdrop']
    by_cases hc : c = r.coreId
    · subst hc
      rw [Function.update_self, interrupted_of_eq, ← hinterrupt]
      cases interrupt with
      | true => exact iff_of_true (by decide) rfl
      | false => exact iff_of_false (fun hne => hne rfl) Bool.false_ne_true
    · rw [Function.update_of_ne hc, interrupted_of_ne (Ne.symm hc), h.interrupted, hdrop]

theorem At.reported (h : At xlen program es k s) (hreplay : Replayable program (es.filterMap id))
    {r : LogRecord}
    {rest : List LogRecord} (hdrop : (es.filterMap id).drop k = r :: rest) {d : DecodedInst}
    (hd : Decoded xlen r.inst d)
    (hplain : ∀ n ∈ nextOf r.coreId rest, (flow r.inst xlen).Unwrapped xlen r.pc r.behind n.pc)
    {info : Instruction} (haddress : info.address = r.pc) (hcore : info.coreId = r.coreId.toNat)
    (hbr : info.brFlags = brFlagOf (flowOf d) r.pc r.behind (lookahead r.coreId rest))
    (hcr : info.CRFlag = s.enterISR r.coreId ||| (flowOf d).crFlag) :
    Reported xlen ((es.filterMap id).take k) rest r info := by
  have hrest : ∀ n ∈ rest, n.pc ≠ 0 := fun n hn =>
    hreplay.pc_ne n (List.mem_of_mem_drop (hdrop ▸ List.mem_cons_of_mem r hn))
  have hflow : ∀ offset, flow r.inst xlen = .branch offset → flowOf d = .branch offset := by
    intro offset hoffset
    rcases hd.flow with heq | ⟨htrap, -⟩
    · exact heq.trans hoffset
    · rw [hoffset] at htrap
      cases htrap
  refine ⟨haddress, hcore, ?_, ?_, ?_⟩
  · intro offset hoffset hne
    have hne' : r.pc + offset ≠ r.behind := fun heq => hne (congrArg xlen.wrap heq)
    rw [hbr, hflow offset hoffset, brFlag_taken_iff hrest hne']
    rw [hoffset] at hplain
    exact exists_congr fun n => and_congr_right fun hn => (hplain n hn).2.symm
  · intro offset hoffset _
    rw [hbr, hflow offset hoffset, brFlag_notTaken_iff hrest]
    rw [hoffset] at hplain
    exact exists_congr fun n => and_congr_right fun hn => (hplain n hn).1.symm
  · rw [hcr, interrupt_or_iff (h.enterISR r.coreId) (crFlag_interrupt (flowOf d)), h.interrupted,
      hdrop, interrupted_current]

/-- A call that has found its record, and what is in the way of neither the decoder nor the
disassembler. -/
theorem nextInstruction_ok {nextSrec srec look : SRec} {found interrupt : Bool} {l : ℕ}
    {d : DecodedInst} {crFlag : CRFlag}
    {brFlags : BranchFlags} {instruction : Instruction} {source : Source}
    (hlt : s.nextLine < s.lines.length) (hcurrent : current nextSrec s = .ok srec)
    (hlookUp :
    lookUp s srec = { s with nextLine := l, haveLookaheadSrec := found, lookaheadSrec := look })
    (hdecodes : Disassembler.decodeInstruction srec.inst s.archSize = some d)
    (hflags : branchFlags d srec.pc (if found then look.pc else 0) = (crFlag, brFlags, interrupt))
    (hdisassemble : s.program.disassemble srec.pc = some (instruction, source)) :
    ∃ info src s', NextInstruction nextSrec s = (⟨.ok, some info, some src⟩, s') ∧
      (info.address = srec.pc ∧ info.coreId = srec.coreId.toNat ∧ info.brFlags = brFlags ∧
        info.CRFlag = s.enterISR srec.coreId ||| crFlag) ∧
      s'.lines = s.lines ∧ s'.program = s.program ∧ s'.archSize = s.archSize ∧ s'.nextLine = l ∧
      s'.haveLookaheadSrec = found ∧ s'.lookaheadSrec = look ∧
      s'.enterISR = Function.update s.enterISR srec.coreId (if interrupt then CRFlag.isInterrupt
        else 0) := by
  rw [NextInstruction, if_neg (by omega), hcurrent]
  simp only [hlookUp, computeBranchFlags, hdecodes, hflags, buildInstructionFromSrec, hdisassemble]
  exact ⟨_, _, _, rfl, ⟨rfl, rfl, rfl, rfl⟩, rfl, rfl, rfl, rfl, rfl, rfl, rfl⟩

theorem At.step (h : At xlen program es k s) (hreplay : Replayable program (es.filterMap id))
    (hbreak : BreaksPassed xlen (es.filterMap id)) (hnone : NoneWraps xlen (es.filterMap id))
    {r : LogRecord}
    {rest : List LogRecord} (hdrop : (es.filterMap id).drop k = r :: rest) (nextSrec : SRec) :
    ∃ info src s', NextInstruction nextSrec s = (⟨.ok, some info, some src⟩, s') ∧
      Reported xlen ((es.filterMap id).take k) rest r info ∧ At xlen program es (k + 1) s' := by
  have hlt := h.lt_length hdrop
  have hmem : r ∈ es.filterMap id := List.mem_of_mem_drop (hdrop ▸ List.mem_cons_self)
  have hget : (es.filterMap id)[k]? = some r := by rw [← List.head?_drop, hdrop]; rfl
  have hdrop' : (es.filterMap id).drop (k + 1) = rest := by rw [← List.drop_drop, hdrop]; rfl
  have hrestpc : ∀ n ∈ rest, n.pc ≠ 0 := fun n hn =>
    hreplay.pc_ne n (List.mem_of_mem_drop (hdrop ▸ List.mem_cons_of_mem r hn))
  have hcurrent := h.current hlt nextSrec
  rw [hdrop] at hcurrent
  obtain ⟨srec, l, hcurrent, hread, hrest⟩ := hcurrent
  obtain ⟨found, look, hlookUp, hpc, hlook⟩ := h.lookUp hread hrest
  obtain ⟨d, hd⟩ := exists_decoded_of_fetchable (hreplay.fetchable r hmem) xlen
  have hsome : (program.disassemble r.pc).isSome := by
    rw [program.disassembles]; exact hreplay.image r hmem
  obtain ⟨⟨instruction, source⟩, hdisassemble⟩ := Option.isSome_iff_exists.mp hsome
  have hd' := hd.decodes
  have hsize : r.pc + BitVec.ofNat 64 (d.inst_size / 8) = r.behind := by
    rw [hd.inst_size, Nat.mul_div_cancel_left _ (by decide)]
    rfl
  have hflags := branchFlags_eq d r.pc (lookahead r.coreId rest)
  rw [hsize] at hflags
  have hplain : ∀ n ∈ nextOf r.coreId rest, (flow r.inst xlen).Unwrapped xlen r.pc r.behind n.pc :=
    fun n hn => hnone k r hget n (by rw [hdrop']; exact hn)
  have hinterrupt : decide (lookahead r.coreId rest ≠ 0 ∧ ¬ (flowOf d).Admits .rv64 r.pc r.behind
      (lookahead r.coreId rest)) = true ↔ ∃ n, nextOf r.coreId rest = some n ∧
        ¬ (flow r.inst xlen).Admits xlen r.pc r.behind n.pc := by
    rw [decide_eq_true_eq, lookahead_ne_zero_and hrestpc (fun a => ¬ (flowOf d).Admits .rv64 r.pc
      r.behind a)]
    refine exists_congr fun n => and_congr_right fun hn => not_congr ?_
    refine (admits_decoded (hreplay.fetchable r hmem) hd ?_).trans (hplain n hn).admits_iff.symm
    exact hbreak k r hget n (by rw [hdrop']; exact hn)
  obtain ⟨-, -, rfl⟩ := hread.fields
  rw [← hpc] at hflags
  rw [← h.archSize] at hd'
  rw [← h.program] at hdisassemble
  obtain ⟨info, src, s', hrun, ⟨haddress, hcore, hbr, hcr⟩, hlines, hprogram, harch, hnext, hfound,
      hlook', hisr⟩ :=
    nextInstruction_ok hlt hcurrent hlookUp hd' hflags hdisassemble
  rw [hpc] at hbr hisr
  refine ⟨info, src, s', hrun, h.reported hreplay hdrop hd hplain haddress hcore hbr hcr, ?_⟩
  refine h.succ hdrop hrest hlines hprogram harch hnext ?_ hisr hinterrupt
  rw [hfound, hlook']
  exact hlook

/-! ### The calls -/

theorem calls_eof (h : ∀ nextSrec, NextInstruction nextSrec s = ({ rc := .eof }, s))
    (stack : List SRec) :
    ∀ result ∈ calls stack s, result = { rc := .eof } := by
  induction stack with
  | nil => exact fun _ hmem => absurd hmem List.not_mem_nil
  | cons nextSrec stack ih =>
    rw [calls, h]
    exact fun result hmem => (List.mem_cons.mp hmem).elim id (ih result)

theorem At.calls (h : At xlen program es k s) (hreplay : Replayable program (es.filterMap id))
    (hbreak : BreaksPassed xlen (es.filterMap id)) (hnone : NoneWraps xlen (es.filterMap id))
    (stack : List SRec) (i : ℕ) (result : Result) (hresult : (calls stack s)[i]? = some result) :
    match (es.filterMap id)[k + i]? with
    | none => result = { rc := .eof }
    | some r => ∃ info src, result = ⟨.ok, some info, some src⟩ ∧
        Reported xlen ((es.filterMap id).take (k + i)) ((es.filterMap id).drop (k + i + 1))
          r info := by
  induction stack generalizing k s i with
  | nil => cases hresult
  | cons nextSrec stack ih =>
    cases hdrop : (es.filterMap id).drop k with
    | nil =>
      have hlength : (es.filterMap id).length ≤ k := List.drop_eq_nil_iff.mp hdrop
      rw [List.getElem?_eq_none (by omega)]
      exact calls_eof (fun nextSrec => h.eof hdrop nextSrec) _ result (List.mem_of_getElem? hresult)
    | cons r rest =>
      obtain ⟨info, src, s', hrun, hreported, hnext⟩ := h.step hreplay hbreak hnone hdrop nextSrec
      rw [Simulator.calls, hrun] at hresult
      cases i with
      | zero =>
        have hget : (es.filterMap id)[k + 0]? = some r := by
          rw [← List.head?_drop, Nat.add_zero, hdrop]; rfl
        have hrest : (es.filterMap id).drop (k + 0 + 1) = rest := by
          rw [Nat.add_zero, ← List.drop_drop, hdrop]; rfl
        rw [hget, hrest]
        exact ⟨info, src, (Option.some.inj hresult).symm, hreported⟩
      | succ i =>
        rw [show k + (i + 1) = k + 1 + i by omega]
        exact ih hnext i hresult

theorem at_init {setup : Setup} {log : List (List Char)} {s : Simulator}
    (harch : setup.archSize = xlen.archSize)
    (hline : ∀ text ∈ log, '\n' ∉ text) (hcontent : LogSays (linesRead log) es)
    (hlook : ¬ (setup.haveLookaheadSrec ∧ setup.lookaheadSrec.line = 0))
    (hinit : init setup (fileOf log) = some s) :
    At xlen setup.program es 0 s := by
  rw [init, readFile_fileOf hline] at hinit
  cases hinit
  exact {
    rows := says_pointers hcontent
    program := rfl
    archSize := harch
    left := rfl
    look := fun hhave hzero => absurd ⟨hhave, hzero⟩ hlook
    enterISR := fun _ => .inl rfl
    interrupted := fun c => iff_of_false (fun hne => hne rfl) (by rintro ⟨q, r, hq, -⟩; cases hq) }

/-- A log without syntax errors for the program, and what its lines say. -/
structure WellFormed (xlen : Xlen) (setup : Setup) (log : List (List Char))
    (es : List (Option LogRecord)) : Prop where
  archSize : setup.archSize = xlen.archSize
  line : ∀ text ∈ log, '\n' ∉ text
  content : LogSays log es
  records : Replayable setup.program (es.filterMap id)

/-- What was in the memory of the object is not taken for a record of the first line. -/
def Setup.Fresh (setup : Setup) : Prop := ¬ (setup.haveLookaheadSrec ∧ setup.lookaheadSrec.line = 0)

def lineOf (core valid : Char) (pc inst : List Char) : List Char :=
  'C' :: core :: ": 1 [".toList ++ valid :: "] pc=[".toList ++ pc ++ "] W[r0=0][0]".toList ++
    " R[r0=0]".toList ++ " R[r0=0]".toList ++ " inst=[".toList ++ inst ++ "] DASM(".toList ++
      inst ++ [')']

def comment : List Char := "# a log".toList

/-- A branch of core 0 that is taken and a trap of core 1, among lines of all the other kinds. -/
def mixedLog : List (List Char) :=
  [comment, lineOf '0' '1' "1000".toList "463".toList, lineOf '1' '1' "2000".toList "73".toList,
    lineOf '0' '0' "1004".toList "13".toList, "C0: 1 vrf[3]=[7][7]".toList,
      "C1: 1 frf[3]=[2000]".toList,
    lineOf '0' '1' "1008".toList "13".toList, lineOf '1' '1' "100c".toList "13".toList]

def mixedSetup : Setup where
  program := Program.ofWords fun a => [(0x1000, 0x463), (0x1004, 0x13), (0x1008, 0x13),
    (0x100c, 0x13), (0x2000, 0x73)].lookup a
  archSize := 32
  haveLookaheadSrec := true
  lookaheadSrec := { line := 7 }

def mixedRecords : List LogRecord :=
  [⟨0, 0x1000, 0x463⟩, ⟨1, 0x2000, 0x73⟩, ⟨0, 0x1008, 0x13⟩, ⟨1, 0x100c, 0x13⟩]

def mixedEntries : List (Option LogRecord) :=
  [none, some ⟨0, 0x1000, 0x463⟩, some ⟨1, 0x2000, 0x73⟩, none, none, none, some ⟨0, 0x1008, 0x13⟩,
    some ⟨1, 0x100c, 0x13⟩]

/-! ### Logs that are not replayed -/

def Fails (xlen : Xlen) (setup : Setup) (log : List (List Char)) : Prop :=
  ∃ es, WellFormed xlen setup log es ∧
    ∃ s, init setup (fileOf log) = some s ∧ ∃ stack, ¬ Replays xlen (es.filterMap id)
      (calls stack s)

/-- A `c.ebreak`, and what its core goes on with. -/
def breakLine : List Char := lineOf '0' '1' "1000".toList "9002".toList
def trapLine : List Char := lineOf '0' '1' "2000".toList "13".toList

def breakSetup : Setup where
  program := Program.ofWords fun a => [(0x1000, 0x9002), (0x2000, 0x13)].lookup a
  archSize := 32
  haveLookaheadSrec := false
  lookaheadSrec := {}

def Result.flags (r : Result) : Option (ADDRESS × CRFlag) :=
  r.instInfo.map fun info => (info.address, info.CRFlag)

theorem Fails.of_flags {setup : Setup} {log : List (List Char)} (h : WellFormed xlen setup log es)
    (stack : List SRec)
    (i : ℕ) (r : LogRecord) (flags : Option (ADDRESS × CRFlag))
    (hr : (es.filterMap id)[i]? = some r)
    (hflags : (init setup (fileOf log)).map (fun s => (calls stack s)[i]?.map Result.flags) = some
    (some flags))
    (hwrong : ∀ info, flags = some (info.address, info.CRFlag) →
      ¬ Reported xlen ((es.filterMap id).take i) ((es.filterMap id).drop (i + 1)) r info) :
    Fails xlen setup log := by
  obtain ⟨s, hinit, hcall⟩ := Option.map_eq_some_iff.mp hflags
  obtain ⟨result, hresult, rfl⟩ := Option.map_eq_some_iff.mp hcall
  refine ⟨es, h, s, hinit, stack, fun hreplays => ?_⟩
  have hcall := hreplays i result hresult
  rw [hr] at hcall
  obtain ⟨info, src, rfl, hreported⟩ := hcall
  exact hwrong info rfl hreported

def breakRecord : LogRecord := ⟨0, 0x1000, 0x9002⟩

def trapRecord : LogRecord := ⟨0, 0x2000, 0x13⟩

theorem wellFormed_breakLog {log : List (List Char)} (es : List (Option LogRecord))
    (hline : ∀ text ∈ log, '\n' ∉ text) (hcontent : LogSays log es)
    (hrecords : ∀ r ∈ es.filterMap id, r ∈ [breakRecord, trapRecord]) (haveLookaheadSrec : Bool) :
    WellFormed .rv32 { breakSetup with haveLookaheadSrec } log es := by
  have hreplay : Replayable breakSetup.program [breakRecord, trapRecord] :=
    ⟨by decide, by decide, by decide +kernel, by decide⟩
  exact ⟨rfl, hline, hcontent, fun r hr => hreplay.core r (hrecords r hr), fun r hr => hreplay.pc_ne
    r (hrecords r hr), fun r hr => hreplay.image r (hrecords r hr), fun r hr => hreplay.fetchable r
      (hrecords r hr)⟩

def wrapLog : List (List Char) :=
  [comment, lineOf '0' '1' "fffffffc".toList "80006f".toList, lineOf '0' '1' "4".toList "13".toList]

def wrapEntries : List (Option LogRecord) :=
  [none, some ⟨0, 0xfffffffc, 0x0080006f⟩, some ⟨0, 0x4, 0x13⟩]

def wrapSetup : Setup :=
  { breakSetup with program := Program.ofWords fun a => [(0xfffffffc, 0x0080006f), (0x4, 0x13)].lookup a }

end Simulator

end TraceDecoder
