import TraceDecoder.DecodeFlow

/-!
# One step in terms of control flow

`nextAddr` looks at nothing of an instruction but its size and its control flow.
-/

namespace TraceDecoder

open Isa

/-- What a step makes of an instruction of the given flow at `addr`, before the
instruction count is consumed. -/
def Stepped.ofFlow (f : Flow) (nm : NexusMessage) (traceType : TraceType) (c : Count)
    (halfWords : ℤ) (next addr : ADDRESS) : Option Stepped :=
  let mask := CRFlag.isReturn ||| CRFlag.isSwap
  match f with
  | .sequential => some ⟨next, CRFlag.isNone, .none, traceType, c⟩
  | .jump offset true => some ⟨addr + offset, CRFlag.isCall, .none, traceType, c.push next⟩
  | .jump offset false => some ⟨addr + offset, CRFlag.isNone, .none, traceType, c⟩
  | .branch offset => branch nm traceType c halfWords next (addr + offset)
  | .indirect .jump => some (indirectJump mask CRFlag.isNone traceType c halfWords next (-1))
  | .indirect .call =>
    some (indirectJump mask CRFlag.isCall traceType (c.push next) halfWords next (-1))
  | .indirect .ret =>
    some (indirectJump mask CRFlag.isReturn traceType c.pop.2 halfWords next c.pop.1)
  | .indirect .swap =>
    some (indirectJump mask CRFlag.isSwap traceType (c.pop.2.push next) halfWords next c.pop.1)
  | .trap => some ⟨-1, CRFlag.isException, .none, traceType, c⟩
  | .trapReturn => some ⟨-1, CRFlag.isExceptionReturn, .none, traceType, c⟩

section
variable (d : DecodedInst) (nm : NexusMessage) (traceType : TraceType) (c : Count) (halfWords : ℤ)
  (next addr : ADDRESS)

/-- The three kinds of indirect jump test for a history trace with masks of their own, which let
through the same flags. -/
theorem indirectJump_mask (mask crFlag : CRFlag) (pc : ADDRESS)
    (h : crFlag &&& mask ≠ 0 ↔ crFlag &&& (CRFlag.isReturn ||| CRFlag.isSwap) ≠ 0) :
    Stepped.indirectJump mask crFlag traceType c halfWords next pc
      = Stepped.indirectJump (CRFlag.isReturn ||| CRFlag.isSwap) crFlag traceType c halfWords
        next pc := by
  simp only [Stepped.indirectJump, h]

theorem ofInst_eq_ofFlow :
    Stepped.ofInst d nm traceType c halfWords next (addr + d.immediate.signExtend 64)
      = Stepped.ofFlow (flowOf d) nm traceType c halfWords next addr := by
  cases ht : d.inst_type <;> simp only [Stepped.ofInst, flowOf, ht, Stepped.ofFlow]
  case jal | cJal => cases hl : isLink d.rd <;> simp [Stepped.jal, hl]
  case jalr =>
    cases hrd : isLink d.rd <;> cases hrs1 : isLink d.rs1
    · simp [Stepped.jalr, hrd, hrs1]
    · simp [Stepped.jalr, hrd, hrs1]
    · simp [Stepped.jalr, hrd, hrs1]
    · by_cases heq : d.rd = d.rs1 <;> simp [Stepped.jalr, hrd, hrs1, heq]
  case cJr =>
    cases hrs1 : isLink d.rs1 <;> simp only [Stepped.cJr, hrs1, if_true, if_false,
      Bool.false_eq_true]
    · rw [indirectJump_mask _ _ _ _ _ _ _ (by decide)]
    · rw [indirectJump_mask _ _ _ _ _ _ _ (by decide)]
  case cJalr =>
    by_cases hrs1 : d.rs1 = REG_5 <;> simp only [Stepped.cJalr, hrs1, if_true, if_false]
    · rw [indirectJump_mask _ _ _ _ _ _ _ (by decide)]
    · rw [indirectJump_mask _ _ _ _ _ _ _ (by decide)]

end

/-- The step at an instruction other than a trap, from the flow the manual gives it. -/
theorem nextAddr_eq_ofFlow {img : Image} {xlen : Xlen} {a : ADDRESS} {w : RV_INST}
    (hw : img.word a = some w) (htrap : flow w xlen ≠ .trap) (traceType : TraceType) (c : Count)
    (nm : NexusMessage) :
    nextAddr img xlen.archSize traceType c nm a =
      match Stepped.ofFlow (flow w xlen) nm traceType c (size w / 2)
        (a + BitVec.ofNat 64 (size w)) a with
      | none => .error .ok
      | some s => .ok (s.consume (size w / 2)) := by
  obtain ⟨d, hdecodes, hsize, hflow⟩ := exists_decoded img xlen hw
  have hflow' : flowOf d = flow w xlen := hflow.resolve_right fun h => htrap h.1
  have hhalf : (d.inst_size : ℤ) / 16 = (size w : ℤ) / 2 := by omega
  have hbytes : d.inst_size / 8 = size w := by omega
  cases h : Stepped.ofFlow (flow w xlen) nm traceType c (size w / 2) (a + BitVec.ofNat 64 (size w))
    a <;> simp only [nextAddr, hw, hdecodes, hhalf, hbytes, ofInst_eq_ofFlow, hflow', h]

end TraceDecoder
