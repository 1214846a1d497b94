import TraceDecoder.SimulatorFlags

/-!
# The flags of the log decoders

The decoders for simulator logs and for value change dumps find the flags of an instruction with a
switch each, from the address that comes next; a trace has history bits instead. All three agree
where the successor is one that the instruction can have, but that the `c.ebreak` of RV32 is in none
of the switches: what comes behind its trap is taken for an interrupt. So is a successor on the
other side of the end of the address space of RV32.
-/

namespace TraceDecoder

open Isa Simulator

/-- What `VCD::computeBranchFlags` uses of an object. -/
structure VCD where
  status : DQErr
  archSize : ℕ
  enterISR : BitVec 8 → CRFlag

/-- `VCD::computeBranchFlags`, whose switch is that of `Simulator::computeBranchFlags`. -/
def VCD.computeBranchFlags (v : VCD) (core : BitVec 8) (currentAddr : ADDRESS)
    (currentInst : RV_INST) (nextAddr : ADDRESS) :
    Option (CRFlag × BranchFlags) × VCD :=
  match Disassembler.decodeInstruction currentInst v.archSize with
  | none => (none, { v with status := .err, enterISR := Function.update v.enterISR core 0 })
  | some d =>
    let (crFlag, brFlag, interrupt) := branchFlags d currentAddr nextAddr
    (some (v.enterISR core ||| crFlag, brFlag),
      { v with enterISR :=
        Function.update v.enterISR core (if interrupt then CRFlag.isInterrupt else 0) })

def LeadsTo (xlen : Xlen) (f : Flow) (c : Count) (addr behind next : ADDRESS) : Prop :=
  ∀ offset, f = .branch offset → c.getCurrentCountType = .history ∧
    ∃ taken c', c.consumeHistory = some (taken, c') ∧
      xlen.wrap (if taken then addr + offset else behind) = next

namespace LogFlags

variable {xlen : Xlen} {img : Image} {addr next : ADDRESS} {w : RV_INST} {d : DecodedInst}

theorem brFlag_ofFlow {f : Flow} {c : Count} {nm : NexusMessage} {halfWords : ℤ} {behind : ADDRESS}
    (hnext : next ≠ 0)
    (hne : ∀ offset, f = .branch offset → xlen.wrap (addr + offset) ≠ xlen.wrap behind)
    (hplain : f.Admits .rv64 addr behind next) (hleads : LeadsTo xlen f c addr behind next) :
    ∃ st, Stepped.ofFlow f nm .htm c halfWords behind addr = some st ∧
      st.brFlag = brFlagOf f addr behind next := by
  cases f with
  | branch offset =>
    obtain ⟨htype, taken, c', hconsume, hnext'⟩ := hleads offset rfl
    have hbranch : Stepped.ofFlow (.branch offset) nm .htm c halfWords behind addr =
        Stepped.branchHtm nm .htm c halfWords behind (addr + offset) := rfl
    rw [hbranch, Stepped.branchHtm, htype]
    simp only [hconsume, brFlagOf, if_neg hnext]
    cases taken with
    | true =>
      obtain ⟨htaken, hbehind⟩ := eq_of_wrap (hne offset rfl) hnext' hplain.symm
      exact ⟨_, rfl, by rw [if_neg hbehind, if_pos htaken]⟩
    | false =>
      have hbehind : next = behind := (eq_of_wrap (hne offset rfl).symm hnext' hplain).1
      exact ⟨_, rfl, by rw [if_pos hbehind]⟩
  | jump offset link => cases link <;> exact ⟨_, rfl, rfl⟩
  | indirect hint => cases hint <;> exact ⟨_, rfl, rfl⟩
  | sequential | trap | trapReturn => exact ⟨_, rfl, rfl⟩

/-- A step of a history trace gives the flags that the address of the successor gives, whatever else
is in the counts. -/
theorem nextAddr_flags (hw : img.word addr = some w) (hd : Decoded xlen w d) (hnext : next ≠ 0)
    (hne : ∀ offset, flowOf d = .branch offset → xlen.wrap (addr + offset) ≠ xlen.wrap
    (addr + BitVec.ofNat 64 (size w)))
    (hplain : (flowOf d).Admits .rv64 addr (addr + BitVec.ofNat 64 (size w)) next) {c : Count}
    (nm : NexusMessage)
    (hleads : LeadsTo xlen (flowOf d) c addr (addr + BitVec.ofNat 64 (size w)) next) :
    ∃ st, nextAddr img xlen.archSize .htm c nm addr = .ok st ∧ st.crFlag = (flowOf d).crFlag ∧
      st.brFlag = brFlagOf (flowOf d) addr (addr + BitVec.ofNat 64 (size w)) next := by
  have hsize : d.inst_size / 8 = size w := by
    rw [hd.inst_size]
    exact Nat.mul_div_cancel_left _ (by decide)
  obtain ⟨st, hst, hbrFlag⟩ : ∃ st, Stepped.ofFlow (flowOf d) nm .htm c (d.inst_size / 16)
      (addr + BitVec.ofNat 64 (size w)) addr = some st ∧ st.brFlag = brFlagOf (flowOf d) addr
        (addr + BitVec.ofNat 64 (size w)) next :=
    brFlag_ofFlow hnext hne hplain hleads
  rw [← ofInst_eq_ofFlow] at hst
  refine ⟨st.consume (d.inst_size / 16), ?_, ?_, ?_⟩
  · simp only [nextAddr, hw, hd.decodes, hsize, hst]
  · rw [crFlag_consume]
    exact crFlag_ofInst d nm .htm c _ _ _ hst
  · rw [← hbrFlag]
    unfold Stepped.consume
    split_ifs <;> rfl

/-- What the decoder of simulator logs finds where no interrupt is pending. -/
theorem simulator_flags (hd : Decoded xlen w d) (s : Simulator) (core : BitVec 8)
    (hs : s.archSize = xlen.archSize) (hisr : s.enterISR core = 0) :
    (s.computeBranchFlags core addr w next).1 = some
    ((branchFlags d addr next).1, (branchFlags d addr next).2.1) ∧
      (s.computeBranchFlags core addr w next).2.enterISR core = if (branchFlags d addr next).2.2
        then CRFlag.isInterrupt else 0 := by
  have hnone (crFlag : CRFlag) : 0 ||| crFlag = crFlag := BitVec.zero_or
  simp only [Simulator.computeBranchFlags, hs, hd.decodes, hisr, hnone, Function.update_self,
    and_self]

theorem vcd_flags (hd : Decoded xlen w d) (v : VCD) (core : BitVec 8)
    (hv : v.archSize = xlen.archSize) (hisr : v.enterISR core = 0) :
    (v.computeBranchFlags core addr w next).1 = some
    ((branchFlags d addr next).1, (branchFlags d addr next).2.1) ∧
      (v.computeBranchFlags core addr w next).2.enterISR core = if (branchFlags d addr next).2.2
        then CRFlag.isInterrupt else 0 := by
  have hnone (crFlag : CRFlag) : 0 ||| crFlag = crFlag := BitVec.zero_or
  simp only [VCD.computeBranchFlags, hv, hd.decodes, hisr, hnone, Function.update_self, and_self]

end LogFlags

/-- **One classification**: an instruction gets the same flags from both log decoders, if no
interrupt is pending, and from each history trace that leads to the successor, of which there are
some; the successor is not taken for the start of an interrupt. -/
def OneClassification (xlen : Xlen) (img : Image) (addr : ADDRESS) (w : RV_INST) (next : ADDRESS) :
    Prop :=
  ∃ crFlag brFlag,
    (∀ (s : Simulator) core, s.archSize = xlen.archSize → s.enterISR core = 0 →
      (s.computeBranchFlags core addr w next).1 = some (crFlag, brFlag) ∧
        (s.computeBranchFlags core addr w next).2.enterISR core = 0) ∧
    (∀ (v : VCD) core, v.archSize = xlen.archSize → v.enterISR core = 0 →
      (v.computeBranchFlags core addr w next).1 = some (crFlag, brFlag) ∧
        (v.computeBranchFlags core addr w next).2.enterISR core = 0) ∧
    (∃ c, LeadsTo xlen (flow w xlen) c addr (addr + BitVec.ofNat 64 (size w)) next) ∧
    ∀ c nm, LeadsTo xlen (flow w xlen) c addr (addr + BitVec.ofNat 64 (size w)) next →
      ∃ st, nextAddr img xlen.archSize .htm c nm addr = .ok st ∧ st.crFlag = crFlag ∧
        st.brFlag = brFlag ∧ st.crFlag &&& CRFlag.isInterrupt = 0

namespace LogFlags

variable {xlen : Xlen} {img : Image} {addr next : ADDRESS} {w : RV_INST}

theorem branch_decoded {d : DecodedInst} (hd : Decoded xlen w d) (offset : ADDRESS) :
    flowOf d = .branch offset ↔ flow w xlen = .branch offset := by
  rcases hd.flow with heq | ⟨htrap, hseq⟩
  · rw [heq]
  · rw [htrap, hseq]
    simp only [reduceCtorEq]

/-- A history bit can lead to each of the two successors of a branch. -/
theorem exists_leadsTo {behind : ADDRESS} (hlegal : (flow w xlen).Admits xlen addr behind next) :
    ∃ c, LeadsTo xlen (flow w xlen) c addr behind next := by
  by_cases htaken : ∃ offset, flow w xlen = .branch offset ∧ next = xlen.wrap (addr + offset)
  · obtain ⟨offset, hflow, rfl⟩ := htaken
    refine ⟨{ Count.init with history := 3, histBit := 0 }, fun offset' hflow' =>
      ⟨rfl, true, _, rfl, ?_⟩⟩
    rw [hflow] at hflow'
    cases hflow'
    rfl
  · refine ⟨{ Count.init with history := 2, histBit := 0 }, fun offset hflow =>
      ⟨rfl, false, _, rfl, ?_⟩⟩
    rw [hflow] at hlegal
    rcases hlegal with hbehind | htarget
    · exact hbehind.symm
    · exact (htaken ⟨offset, hflow, htarget⟩).elim

/-- **The decoders of logs agree with the decoder of traces** on each legal successor but that of
the `c.ebreak` of RV32 and those that wrap round. -/
theorem oneClassification_iff (hw : img.word addr = some w) (hnext : next ≠ 0)
    (hlegal : (flow w xlen).Admits xlen addr (addr + BitVec.ofNat 64 (size w)) next)
    (hne : ∀ offset, flow w xlen = .branch offset →
      xlen.wrap (addr + offset) ≠ xlen.wrap (addr + BitVec.ofNat 64 (size w))) :
    OneClassification xlen img addr w next ↔ ¬ (xlen = .rv32 ∧ w = 0x9002 ∧ next ≠ addr + 2) ∧
      (flow w xlen).Admits .rv64 addr (addr + BitVec.ofNat 64 (size w)) next := by
  obtain ⟨d, hd⟩ := exists_decoded img xlen hw
  have hfetch : Fetchable w := img.fetched addr w hw
  have hsize : d.inst_size / 8 = size w := by
    rw [hd.inst_size]
    exact Nat.mul_div_cancel_left _ (by decide)
  have hflags := branchFlags_eq d addr next
  rw [hsize] at hflags
  constructor
  · rintro ⟨crFlag, brFlag, -, hvcd, -, -⟩
    obtain ⟨-, hisr⟩ := hvcd ⟨.ok, xlen.archSize, fun _ => 0⟩ 0 rfl rfl
    rw [(vcd_flags hd _ 0 rfl rfl).2, hflags] at hisr
    have hadmits : (flowOf d).Admits .rv64 addr (addr + BitVec.ofNat 64 (size w)) next := by
      by_contra hnot
      rw [if_pos (decide_eq_true ⟨hnext, hnot⟩)] at hisr
      exact absurd hisr (by decide)
    constructor
    · rintro ⟨rfl, rfl, hbehind⟩
      have hdecodes : some (⟨16, .cEbreak, none, none, 0, true⟩ : DecodedInst) = some d :=
        hd.decodes
      rw [← Option.some.inj hdecodes] at hadmits
      exact hbehind hadmits
    · rcases hd.flow with heq | ⟨htrap, -⟩
      · exact heq ▸ hadmits
      · rw [htrap]
        trivial
  · rintro ⟨hnot, hplain⟩
    have hbehind : xlen = .rv32 → w = 0x9002 → next = addr + BitVec.ofNat 64 (size w) := by
      intro hrv32 hword
      by_contra hne
      rw [hword] at hne
      exact hnot ⟨hrv32, hword, hne⟩
    have hadmits : (flowOf d).Admits .rv64 addr (addr + BitVec.ofNat 64 (size w)) next :=
      (admits_decoded hfetch hd hbehind).mpr hplain
    have hno : decide (next ≠ 0 ∧ ¬ (flowOf d).Admits .rv64 addr (addr + BitVec.ofNat 64 (size w))
        next) = false :=
      decide_eq_false fun h => h.2 hadmits
    rw [hno] at hflags
    refine ⟨(flowOf d).crFlag, brFlagOf (flowOf d) addr (addr + BitVec.ofNat 64 (size w)) next, ?_,
      ?_, exists_leadsTo hlegal, ?_⟩
    · intro s core hs hisr
      rw [(simulator_flags hd s core hs hisr).1, (simulator_flags hd s core hs hisr).2, hflags]
      exact ⟨rfl, rfl⟩
    · intro v core hv hisr
      rw [(vcd_flags hd v core hv hisr).1, (vcd_flags hd v core hv hisr).2, hflags]
      exact ⟨rfl, rfl⟩
    · intro c nm hleads
      obtain ⟨st, hst, hcr, hbr⟩ :=
        nextAddr_flags hw hd hnext (fun offset h => hne offset ((branch_decoded hd offset).mp h))
          hadmits nm (fun offset h => hleads offset ((branch_decoded hd offset).mp h))
      exact ⟨st, hst, hcr, hbr, hcr ▸ crFlag_interrupt _⟩

/-- A `beq x0, x0, 8` that is taken, on RV32. -/
theorem oneClassification_iff_taken :
    OneClassification .rv32 (Image.ofWords fun _ => some 0x00000463) 0x1000 0x00000463 0x1008 := by
  have hflow : flow 0x00000463 .rv32 = .branch 8 := by decide
  have hne : ∀ offset, flow 0x00000463 .rv32 = .branch offset →
      Xlen.rv32.wrap (0x1000 + offset) ≠
        Xlen.rv32.wrap (0x1000 + BitVec.ofNat 64 (size 0x00000463)) := by
    intro offset hoffset
    rw [hflow] at hoffset
    cases hoffset
    decide
  exact (oneClassification_iff (by decide) (by decide) (by decide) hne).mpr ⟨by decide, by decide⟩

def Classified (kind : RV_INST → Prop) : Prop :=
  ∀ (xlen : Xlen) (img : Image) (addr next : ADDRESS) (w : RV_INST), img.word addr = some w →
    next ≠ 0 → (flow w xlen).Admits xlen addr (addr + BitVec.ofNat 64 (size w)) next →
    (∀ offset, flow w xlen = .branch offset →
      xlen.wrap (addr + offset) ≠ xlen.wrap (addr + BitVec.ofNat 64 (size w))) →
    kind w → OneClassification xlen img addr w next

theorem not_classified {kind : RV_INST → Prop} (xlen : Xlen) (addr next : ADDRESS) (w : RV_INST)
    (hw : (Image.ofWords fun _ => some w).word addr = some w) (hnext : next ≠ 0)
    (hlegal : (flow w xlen).Admits xlen addr (addr + BitVec.ofNat 64 (size w)) next)
    (hne : ∀ offset, flow w xlen ≠ .branch offset) (hkind : kind w)
    (hisr : ((⟨.ok, xlen.archSize, fun _ => 0⟩ : VCD).computeBranchFlags 0 addr w next).2.enterISR
      0 ≠ 0) :
    ¬ Classified kind := by
  intro hall
  obtain ⟨_, _, -, hvcd, -⟩ :=
    hall xlen _ addr next w hw hnext hlegal (fun offset h => (hne offset h).elim) hkind
  exact hisr (hvcd _ 0 rfl rfl).2

/-- Neither a `c.ebreak` that traps is, nor a jump from the end of the
address space to its start. -/
theorem not_oneClassification : ¬ Classified (· = 0x9002) ∧ ¬ Classified (· ≠ 0x9002) := by
  constructor
  · have htrap : flow 0x9002 .rv32 = .trap := by decide
    exact not_classified .rv32 0x1000 0x80 0x9002 (by decide) (by decide)
      (by decide) (fun _ h => by rw [htrap] at h; cases h) rfl (by decide)
  · have hjump : flow 0x0080006f .rv32 = .jump 8 false := by decide
    exact not_classified .rv32 0xfffffffc 4 0x0080006f (by decide) (by decide) (by decide)
      (fun _ h => by rw [hjump] at h; cases h) (by decide) (by decide)

end LogFlags

end TraceDecoder
