import TraceDecoder.CallFlags
import TraceDecoder.Simulator

/-!
# The flags of a simulated instruction

`computeBranchFlags` tells from the next address whether a branch was taken and whether an interrupt
comes next. It is right where the decoder is, and the decoder is wrong about one instruction: it
gives the `c.ebreak` of RV32 a type of its own. No address of RV32 wraps round.
-/

namespace TraceDecoder

open Isa

/-- Where an instruction at `pc` can go; `behind` is the sum of the address and the size. -/
def Isa.Flow.Admits (xlen : Xlen) (f : Flow) (pc behind next : ADDRESS) : Prop :=
  match f with
  | .sequential => next = xlen.wrap behind
  | .jump offset _ => next = xlen.wrap (pc + offset)
  | .branch offset => next = xlen.wrap behind ∨ next = xlen.wrap (pc + offset)
  | .indirect _ | .trap | .trapReturn => True

instance (xlen : Xlen) (f : Flow) (pc behind next : ADDRESS) :
    Decidable (f.Admits xlen pc behind next) :=
  match f with
  | .sequential | .jump _ _ => inferInstanceAs (Decidable (_ = _))
  | .branch _ => inferInstanceAs (Decidable (_ ∨ _))
  | .indirect _ | .trap | .trapReturn => inferInstanceAs (Decidable True)

/-- The successor is one of those of an instruction if it is one without wrapping round. -/
def Isa.Flow.Unwrapped (xlen : Xlen) (f : Flow) (pc behind next : ADDRESS) : Prop :=
  match f with
  | .sequential => next = xlen.wrap behind ↔ next = behind
  | .jump offset _ => next = xlen.wrap (pc + offset) ↔ next = pc + offset
  | .branch offset =>
    (next = xlen.wrap behind ↔ next = behind) ∧
      (next = xlen.wrap (pc + offset) ↔ next = pc + offset)
  | .indirect _ | .trap | .trapReturn => True

theorem Isa.Flow.Unwrapped.admits_iff {xlen : Xlen} {f : Flow} {pc behind next : ADDRESS}
    (h : f.Unwrapped xlen pc behind next) :
    f.Admits xlen pc behind next ↔ f.Admits .rv64 pc behind next := by
  cases f with
  | sequential => exact h
  | jump offset link => exact h
  | branch offset => exact or_congr h.1 h.2
  | indirect | trap | trapReturn => exact Iff.rfl

instance (xlen : Xlen) (f : Isa.Flow) (pc behind next : ADDRESS) :
    Decidable (f.Unwrapped xlen pc behind next) := by
  cases f <;> simp only [Isa.Flow.Unwrapped] <;> infer_instance

namespace Simulator

/-- What is said of a branch from the next address, which is 0 if there is none. -/
def brFlagOf (f : Flow) (pc behind next : ADDRESS) : BranchFlags :=
  match f with
  | .branch offset =>
    if next = 0 then .none else if next = behind then .notTaken else if next = pc + offset
      then .taken else .none
  | _ => .none

/-- The switch of `computeBranchFlags` is that of `nextAddr`, with addresses of 64 bits. -/
theorem branchFlags_eq (d : DecodedInst) (pc next : ADDRESS) :
    branchFlags d pc next =
      ((flowOf d).crFlag, brFlagOf (flowOf d) pc (pc + BitVec.ofNat 64 (d.inst_size / 8)) next,
      decide (next ≠ 0 ∧ ¬ (flowOf d).Admits .rv64 pc (pc + BitVec.ofNat 64 (d.inst_size / 8))
          next)) := by
  have hcomm (a : ADDRESS) : decide (next ≠ 0 ∧ a ≠ next) = decide (next ≠ 0 ∧ ¬ next = a) :=
    decide_eq_decide.mpr (and_congr_right fun _ => ne_comm)
  have hbranch (offset : ADDRESS) : (Flow.branch offset).crFlag = 0 := rfl
  cases ht : d.inst_type
  case jal =>
    rw [crFlag_jal d (.inl ht)]
    simp only [branchFlags, flowOf, ht, brFlagOf, Flow.Admits, Xlen.wrap_rv64, CRFlag.isNone, hcomm]
  case cJal =>
    rw [crFlag_jal d (.inr ht)]
    simp only [branchFlags, flowOf, ht, brFlagOf, Flow.Admits, Xlen.wrap_rv64, CRFlag.isNone, hcomm]
  case jalr =>
    rw [crFlag_jalr d ht]
    simp only [branchFlags, flowOf, ht, brFlagOf, Flow.Admits, CRFlag.isNone, not_true_eq_false,
      and_false, decide_false]
  case cJr =>
    rw [crFlag_cJr d ht]
    simp only [branchFlags, flowOf, ht, brFlagOf, Flow.Admits, CRFlag.isNone, not_true_eq_false,
      and_false, decide_false]
  case cJalr =>
    rw [crFlag_cJalr d ht]
    simp only [branchFlags, flowOf, ht, brFlagOf, Flow.Admits, not_true_eq_false, and_false,
      decide_false]
  case ebreak | ecall | mret | sret | uret =>
    simp only [branchFlags, flowOf, ht, brFlagOf, Flow.Admits, not_true_eq_false, and_false,
      decide_false]
    rfl
  case beq | bne | blt | bge | bltu | bgeu | cBeqz | cBnez =>
    simp only [branchFlags, flowOf, ht, brFlagOf, Flow.Admits, Xlen.wrap_rv64, hbranch]
    split_ifs with hzero hnext htaken
    · simp [hzero]
    · simp [hnext]
    · simp [htaken]
    · rw [decide_eq_true (show next ≠ 0 ∧ _ from ⟨hzero, not_or.mpr ⟨hnext, htaken⟩⟩)]
  all_goals
    simp only [branchFlags, flowOf, ht, brFlagOf, Flow.Admits, Xlen.wrap_rv64, hcomm]
    rfl

theorem crFlag_interrupt (f : Flow) : f.crFlag &&& CRFlag.isInterrupt = 0 := by
  have hnone : CRFlag.isNone &&& CRFlag.isInterrupt = 0 := by decide
  cases f with
  | jump offset link =>
    cases link with
    | true => exact (by decide : CRFlag.isCall &&& CRFlag.isInterrupt = 0)
    | false => exact hnone
  | indirect hint =>
    cases hint with
    | jump => exact hnone
    | call => exact (by decide : CRFlag.isCall &&& CRFlag.isInterrupt = 0)
    | ret => exact (by decide : CRFlag.isReturn &&& CRFlag.isInterrupt = 0)
    | swap => exact (by decide : CRFlag.isSwap &&& CRFlag.isInterrupt = 0)
  | sequential | branch => exact hnone
  | trap => exact (by decide : CRFlag.isException &&& CRFlag.isInterrupt = 0)
  | trapReturn => exact (by decide : CRFlag.isExceptionReturn &&& CRFlag.isInterrupt = 0)

variable {xlen : Xlen}

theorem wrap_wrap (a : ADDRESS) : xlen.wrap (xlen.wrap a) = xlen.wrap a := by
  cases xlen with
  | rv32 => simp [Xlen.wrap]
  | rv64 => rfl

/-- Of two sums that wrap round to different addresses, an address that one of them wraps round to
can only be that one. -/
theorem eq_of_wrap {a b next : ADDRESS} (hne : xlen.wrap a ≠ xlen.wrap b)
    (hnext : xlen.wrap a = next) (h : next = a ∨ next = b) : next = a ∧ next ≠ b := by
  have hb : next ≠ b := by
    rintro rfl
    apply hne
    rw [← hnext, wrap_wrap]
  exact ⟨h.resolve_right hb, hb⟩

/-- The one instruction that the decoder does not take for what it is. -/
theorem cEbreak_of_decoded {w : RV_INST} {d : DecodedInst} (hw : Fetchable w)
    (hd : Decoded xlen w d) (htrap : flow w xlen = .trap)
    (hseq : flowOf d = .sequential) : xlen = .rv32 ∧ w = 0x9002 := by
  have hnot : ∀ d', Disassembler.decodeInstruction w xlen.archSize = some d' →
      flowOf d' ≠ .sequential → False := by
    intro d' hd' hne
    rw [hd.decodes] at hd'
    exact hne (Option.some.inj hd' ▸ hseq)
  by_cases hq : w.extractLsb' 0 2 = 3
  · rw [flow, if_pos hq, flow32] at htrap
    split_ifs at htrap with _ _ _ h
    rcases h with rfl | rfl <;> cases xlen
    · exact (hnot ⟨32, .ecall, none, none, 0, true⟩ (by decide) (by decide)).elim
    · exact (hnot ⟨32, .ecall, none, none, 0, true⟩ (by decide) (by decide)).elim
    · exact (hnot ⟨32, .ebreak, none, none, 0, true⟩ (by decide) (by decide)).elim
    · exact (hnot ⟨32, .ebreak, none, none, 0, true⟩ (by decide) (by decide)).elim
  · have hshort : w.toNat < 2 ^ 16 := hw.1 (mt (quadrant_eq (k := 3) (by decide)).mp hq)
    rw [flow, if_neg hq, flow16] at htrap
    split_ifs at htrap with _ _ _ h hrd h12
    obtain ⟨h2, h4, hrs2⟩ := h
    rw [ne_eq, not_not, rd] at hrd
    have hfields (lo len k : ℕ) (hk : k < 2 ^ len) (heq : w.extractLsb' lo len =
        BitVec.ofNat len k) : w.toNat / 2 ^ lo % 2 ^ len = k := by
      have hnat := congrArg BitVec.toNat heq
      rwa [BitVec.extractLsb'_toNat, BitVec.toNat_ofNat, Nat.mod_eq_of_lt hk,
        Nat.shiftRight_eq_div_pow] at hnat
    have hlow := hfields 0 2 2 (by decide) h2
    have hsecond := hfields 2 5 0 (by decide) hrs2
    have hfirst := hfields 7 5 0 (by decide) hrd
    have hfunct := hfields 13 3 4 (by decide) h4
    have hbit : w.toNat / 2 ^ 12 % 2 = 1 := by
      rwa [BitVec.getLsbD, Nat.testBit_eq_decide_div_mod_eq, decide_eq_true_eq] at h12
    have hword : w = 0x9002 := by
      apply BitVec.eq_of_toNat_eq
      rw [show (0x9002 : BitVec 32).toNat = 0x9002 by rfl]
      omega
    refine ⟨?_, hword⟩
    cases xlen with
    | rv32 => rfl
    | rv64 =>
      subst hword
      exact (hnot ⟨16, .ebreak, none, none, 0, true⟩ (by decide) (by decide)).elim

/-- Where the decoder is right, or the next address is behind the instruction, the successors are
those of the instruction. -/
theorem admits_decoded {w : RV_INST} {d : DecodedInst} {pc behind next : ADDRESS} (hw : Fetchable w)
    (hd : Decoded xlen w d) (hebreak : xlen = .rv32 → w = 0x9002 → next = behind) :
    (flowOf d).Admits .rv64 pc behind next ↔ (flow w xlen).Admits .rv64 pc behind next := by
  rcases hd.flow with heq | ⟨htrap, hseq⟩
  · rw [heq]
  · obtain ⟨hrv32, hword⟩ := cEbreak_of_decoded hw hd htrap hseq
    rw [htrap, hseq]
    exact ⟨fun _ => trivial, fun _ => hebreak hrv32 hword⟩

theorem exists_decoded_of_fetchable {w : RV_INST} (hw : Fetchable w) (xlen : Xlen) :
    ∃ d, Decoded xlen w d := by
  have hword : (Image.ofWords fun _ => some w).word 0 = some w := if_pos (decide_eq_true hw)
  exact exists_decoded _ xlen hword

theorem interrupt_or_iff {isr crFlag : CRFlag} (hisr : isr = 0 ∨ isr = CRFlag.isInterrupt)
    (hcr : crFlag &&& CRFlag.isInterrupt = 0) :
    (isr ||| crFlag) &&& CRFlag.isInterrupt ≠ 0 ↔ isr ≠ 0 := by
  rw [BitVec.and_or_distrib_right, hcr]
  rcases hisr with rfl | rfl
  · decide
  · decide

end Simulator

end TraceDecoder
