import TraceDecoder.FlowStep
import TraceDecoder.TraceSteps

/-!
# Calls and returns

Three functions tell calls from returns, each by a switch of its own: the one that walks over the
program, the one that finds where an inferable call goes and the one that reports an event.
-/

namespace TraceDecoder

def Isa.Flow.crFlag : Isa.Flow → CRFlag
  | .jump _ true => CRFlag.isCall
  | .indirect .call => CRFlag.isCall
  | .indirect .ret => CRFlag.isReturn
  | .indirect .swap => CRFlag.isSwap
  | .trap => CRFlag.isException
  | .trapReturn => CRFlag.isExceptionReturn
  | _ => CRFlag.isNone

/-- The cases of the switch of `nextAddr(core,...)`. -/
def InstType.isStepped : InstType → Bool
  | .jal | .cJal | .jalr | .beq | .bne | .blt | .bge | .bltu | .bgeu | .cBeqz | .cBnez | .cJ | .cJr | .cJalr | .ebreak
  | .ecall | .mret | .sret | .uret => true
  | _ => false

/-- The cases of the switch of `nextAddr(addr,...)`. -/
def InstType.isCallable : InstType → Bool
  | .jalr | .jal | .cJal | .cJr | .cJalr | .ebreak | .ecall | .mret | .sret | .uret => true
  | _ => false

/-- The cases of the switch of `getCRBRFlags`. -/
def InstType.isEvent : InstType → Bool
  | .jalr | .jal | .cJal | .cJr | .ebreak | .ecall | .mret | .sret | .uret | .beq | .bne | .blt | .bge | .bltu | .bgeu
  | .cBeqz | .cBnez => true
  | _ => false

section
variable (d : DecodedInst) (nm : NexusMessage) (traceType : TraceType) (c : Count) (halfWords : ℤ)
  (next addr : ADDRESS)

theorem crFlag_branch {s : Stepped} {target : ADDRESS}
    (h : Stepped.branch nm traceType c halfWords next target = some s) :
    s.crFlag = CRFlag.isNone := by
  unfold Stepped.branch at h
  cases traceType <;> simp only [reduceCtorEq, Option.some.injEq] at h
  case btm =>
    rw [← h]
    unfold Stepped.branchBtm
    split_ifs <;> rfl
  all_goals
    unfold Stepped.branchHtm at h
    split at h
    · cases h
    · cases h
      rfl
    · split at h <;> cases h <;> rfl
    · obtain ⟨c', -, rfl⟩ := Option.map_eq_some_iff.mp h
      rfl
    · obtain ⟨c', -, rfl⟩ := Option.map_eq_some_iff.mp h
      rfl

theorem crFlag_ofInst {s : Stepped}
    (h : Stepped.ofInst d nm traceType c halfWords next (addr + d.immediate.signExtend 64) =
      some s) :
    s.crFlag = (flowOf d).crFlag := by
  rw [ofInst_eq_ofFlow] at h
  cases hf : flowOf d with
  | branch offset =>
    rw [hf] at h
    exact crFlag_branch nm traceType c halfWords next h
  | jump offset link =>
    rw [hf] at h
    cases link <;> cases h <;> rfl
  | indirect hint =>
    rw [hf] at h
    cases hint <;> cases h <;> rfl
  | sequential | trap | trapReturn =>
    rw [hf] at h
    cases h
    rfl

/-- The link-register rules as the switches spell them out. -/
theorem crFlag_jalr (h : d.inst_type = .jalr) : (flowOf d).crFlag =
    if isLink d.rd then
      if ¬ isLink d.rs1 then CRFlag.isCall else if d.rd ≠ d.rs1 then CRFlag.isSwap
        else CRFlag.isCall
    else if isLink d.rs1 then CRFlag.isReturn else CRFlag.isNone := by
  simp only [flowOf, h]
  cases isLink d.rd <;> cases isLink d.rs1
  · rfl
  · rfl
  · rfl
  · by_cases heq : d.rd = d.rs1 <;> simp only [heq, ne_eq, not_true_eq_false, not_false_eq_true,
      and_true, and_false] <;> rfl

theorem crFlag_jal (h : d.inst_type = .jal ∨ d.inst_type = .cJal) :
    (flowOf d).crFlag = if isLink d.rd then CRFlag.isCall else CRFlag.isNone := by
  rcases h with h | h <;> simp only [flowOf, h] <;> cases isLink d.rd <;> rfl

theorem crFlag_cJr (h : d.inst_type = .cJr) :
    (flowOf d).crFlag = if isLink d.rs1 then CRFlag.isReturn else CRFlag.isNone := by
  simp only [flowOf, h]
  cases isLink d.rs1 <;> rfl

theorem crFlag_cJalr (h : d.inst_type = .cJalr) :
    (flowOf d).crFlag = if d.rs1 = REG_5 then CRFlag.isSwap else CRFlag.isCall := by
  simp only [flowOf, h]
  split_ifs <;> rfl

/-- So does the function that finds where a call goes, if it takes the instruction. -/
theorem callTarget_eq (h : d.inst_type.isCallable) :
    ∃ target, DecoderM.callTarget d addr = some (target, (flowOf d).crFlag) := by
  cases ht : d.inst_type <;> rw [ht] at h
  case jalr => exact ⟨0, by rw [crFlag_jalr d ht]; simp only [DecoderM.callTarget, ht]⟩
  case jal =>
    exact ⟨addr + d.immediate.signExtend
      64, by rw [crFlag_jal d (.inl ht)]; simp only [DecoderM.callTarget, ht]⟩
  case cJal =>
    exact ⟨addr + d.immediate.signExtend
      64, by rw [crFlag_jal d (.inr ht)]; simp only [DecoderM.callTarget, ht]⟩
  case cJr => exact ⟨0, by rw [crFlag_cJr d ht]; simp only [DecoderM.callTarget, ht]⟩
  case cJalr => exact ⟨0, by rw [crFlag_cJalr d ht]; simp only [DecoderM.callTarget, ht]⟩
  case ebreak | ecall | mret | sret | uret =>
    exact ⟨0, by simp only [DecoderM.callTarget, flowOf, ht]; rfl⟩
  all_goals exact absurd h (by decide)

/-- And so does the report of an event, except for `c.jalr`, which its switch leaves out. -/
theorem callFlags_eq (h : d.inst_type.isEvent) : (TraceM.callFlags d).1 = (flowOf d).crFlag := by
  cases ht : d.inst_type <;> rw [ht] at h
  case jalr =>
    rw [crFlag_jalr d ht]
    simp only [TraceM.callFlags, ht]
    split_ifs <;> rfl
  case jal =>
    rw [crFlag_jal d (.inl ht)]
    simp only [TraceM.callFlags, ht]
  case cJal =>
    rw [crFlag_jal d (.inr ht)]
    simp only [TraceM.callFlags, ht]
  case cJr =>
    rw [crFlag_cJr d ht]
    simp only [TraceM.callFlags, ht]
  case ebreak | ecall | mret | sret | uret | beq | bne | blt | bge | bltu | bgeu | cBeqz | cBnez =>
    simp only [TraceM.callFlags, flowOf, ht]
    rfl
  all_goals exact absurd h (by decide)

/-- A step does not fail at an instruction that is not a conditional branch. -/
theorem ofInst_isSome (h : d.inst_type.isCallable) (target : ADDRESS) :
    ∃ s, Stepped.ofInst d nm traceType c halfWords next target = some s := by
  cases ht : d.inst_type <;> rw [ht] at h
  case jalr | jal | cJal | cJr | cJalr | ebreak | ecall | mret | sret | uret =>
    exact ⟨_, by simp only [Stepped.ofInst, ht]; rfl⟩
  all_goals exact absurd h (by decide)

theorem crFlag_consume (s : Stepped) : (s.consume halfWords).crFlag = s.crFlag := by
  unfold Stepped.consume
  split_ifs <;> rfl

end

/-- **The three functions agree** on the instructions that all of them handle, and with the
link-register rules. -/
theorem crFlags_agree {E : Env} (k : CoreState) {w : RV_INST} {d : DecodedInst}
    (hw : (k.memory E).word k.currentAddress = some w)
    (hd : Disassembler.decodeInstruction w E.archSize = some d)
    (hall : d.inst_type.isEvent ∧ d.inst_type.isCallable ∧ d.inst_type.isStepped)
    (traceType : TraceType) (c : Count) (nm : NexusMessage) :
    ∃ brFlag target s, TraceM.getCRBRFlags E k (some .inferableCall) = some
      ((flowOf d).crFlag, brFlag) ∧
      DecoderM.callFrom E k k.currentAddress = some (target, (flowOf d).crFlag) ∧
      nextAddr (k.memory E) E.archSize traceType c nm k.currentAddress = .ok s ∧ s.crFlag =
        (flowOf d).crFlag := by
  obtain ⟨hevent, hcall, -⟩ := hall
  obtain ⟨target, htarget⟩ := callTarget_eq d k.currentAddress hcall
  obtain ⟨s, hs⟩ := ofInst_isSome d nm traceType c (d.inst_size / 16) (k.currentAddress +
    BitVec.ofNat 64 (d.inst_size / 8)) hcall (k.currentAddress + d.immediate.signExtend 64)
  refine ⟨(TraceM.callFlags d).2, target, s.consume (d.inst_size / 16), ?_, ?_, ?_, ?_⟩
  · rw [← callFlags_eq d hevent]
    simp only [TraceM.getCRBRFlags, hw, hd, Option.bind_some, Option.map_some]
  · simp only [DecoderM.callFrom, hw, hd, Option.bind_eq_bind, Option.bind_some, htarget]
  · simp only [nextAddr, hw, hd, hs]
  · rw [crFlag_consume]
    exact crFlag_ofInst d nm traceType c _ _ _ hs

/-- A program of `jalr x1, 0(x5)`, which swaps. -/
def swapEnv : Env :=
  Env.bareMetal false (Program.ofWords fun a => if a = 0 then some 0x000280e7 else none)

theorem crFlags_agree_swap :
    ∃ brFlag target s, TraceM.getCRBRFlags swapEnv (CoreState.init true false)
      (some .inferableCall) = some (CRFlag.isSwap, brFlag) ∧
      DecoderM.callFrom swapEnv (CoreState.init true false) 0 = some (target, CRFlag.isSwap) ∧
      nextAddr ((CoreState.init true false).memory swapEnv) 64 .htm Count.init NexusMessage.init 0 =
        .ok s ∧
      s.crFlag = CRFlag.isSwap :=
  crFlags_agree (E := swapEnv) (CoreState.init true false) (w := 0x000280e7)
    (d := ⟨32, .jalr, REG_5, REG_1, 0, true⟩) (by decide) (by decide) (by decide) .htm Count.init
      NexusMessage.init

end TraceDecoder
