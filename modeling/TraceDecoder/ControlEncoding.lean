import TraceDecoder.DecodeFlow

/-!
# Encoding of control flow

The jumps and branches of the RISC-V manual with their operands, their encodings, and what the
decoder reads back. Of the register field of `c.beqz` and `c.bnez` it takes two of three bits, and
it does not count from x8; all the rest is read back.
-/

namespace TraceDecoder

open Disassembler

namespace Isa

inductive BranchCond
  | eq | ne | lt | ge | ltu | geu
  deriving DecidableEq, Repr

def BranchCond.funct3 : BranchCond → BitVec 3
  | eq => 0
  | ne => 1
  | lt => 4
  | ge => 5
  | ltu => 6
  | geu => 7

def BranchCond.instType : BranchCond → InstType
  | eq => .beq
  | ne => .bne
  | lt => .blt
  | ge => .bge
  | ltu => .bltu
  | geu => .bgeu

/-- The offsets are in half-words, but for that of `jalr`. A register field of
three bits counts from x8. -/
inductive ControlInst
  | jal (rd : BitVec 5) (offset : BitVec 20)
  | jalr (rd rs1 : BitVec 5) (offset : BitVec 12)
  | branch (cond : BranchCond) (rs1 rs2 : BitVec 5) (offset : BitVec 12)
  | cJal (offset : BitVec 11)
  | cJ (offset : BitVec 11)
  | cJr (rs1 : BitVec 5) (h : rs1 ≠ 0)
  | cJalr (rs1 : BitVec 5) (h : rs1 ≠ 0)
  | cBeqz (rs1' : BitVec 3) (offset : BitVec 8)
  | cBnez (rs1' : BitVec 3) (offset : BitVec 8)

/-! ### The formats -/

section

variable (rd rs1 rs2 : BitVec 5)

def encodeJ (o : BitVec 20) : RV_INST :=
  o.extractLsb' 19 1 ++ o.extractLsb' 0 10 ++ o.extractLsb' 10 1 ++ o.extractLsb' 11 8 ++
    rd ++ 0x6f#7

def encodeI (o : BitVec 12) : RV_INST := o ++ rs1 ++ 0#3 ++ rd ++ 0x67#7

def encodeB (funct3 : BitVec 3) (o : BitVec 12) : RV_INST :=
  o.extractLsb' 11 1 ++ o.extractLsb' 4 6 ++ rs2 ++ rs1 ++ funct3 ++ o.extractLsb' 0 4 ++
    o.extractLsb' 10 1 ++ 0x63#7

def encodeCJ (funct3 : BitVec 3) (o : BitVec 11) : RV_INST :=
  0#16 ++ (funct3 ++ o.extractLsb' 10 1 ++ o.extractLsb' 3 1 ++ o.extractLsb' 7 2 ++ o.extractLsb' 9
    1 ++ o.extractLsb' 5 1 ++ o.extractLsb' 6 1 ++ o.extractLsb' 0 3 ++ o.extractLsb' 4 1 ++ 1#2)

def encodeCB (funct3 rs1' : BitVec 3) (o : BitVec 8) : RV_INST :=
  0#16 ++ (funct3 ++ o.extractLsb' 7 1 ++ o.extractLsb' 2 2 ++ rs1' ++ o.extractLsb' 5 2 ++
    o.extractLsb' 0 2 ++ o.extractLsb' 4 1 ++ 1#2)

def encodeCR (funct4 : BitVec 4) : RV_INST := 0#16 ++ (funct4 ++ rs1 ++ 0#5 ++ 2#2)

end

namespace ControlInst

def encode : ControlInst → RV_INST
  | jal rd offset => encodeJ rd offset
  | jalr rd rs1 offset => encodeI rd rs1 offset
  | branch cond rs1 rs2 offset => encodeB rs1 rs2 cond.funct3 offset
  | cJal offset => encodeCJ 1 offset
  | cJ offset => encodeCJ 5 offset
  | cJr rs1 _ => encodeCR rs1 8
  | cJalr rs1 _ => encodeCR rs1 9
  | cBeqz rs1' offset => encodeCB 6 rs1' offset
  | cBnez rs1' offset => encodeCB 7 rs1' offset

def bytes {n : ℕ} (offset : BitVec n) : BitVec 32 := (offset ++ 0#1).signExtend 32

def compressedReg (rs1' : BitVec 3) : Reg := some (8 + rs1'.setWidth 5)

/-- What the decoder is to say. A register that the instruction does not have is unknown. -/
def decoded : ControlInst → DecodedInst
  | jal rd offset => ⟨32, .jal, none, some rd, bytes offset, true⟩
  | jalr rd rs1 offset => ⟨32, .jalr, some rs1, some rd, offset.signExtend 32, true⟩
  | branch cond rs1 _ offset => ⟨32, cond.instType, some rs1, none, bytes offset, true⟩
  | cJal offset => ⟨16, .cJal, none, REG_1, bytes offset, true⟩
  | cJ offset => ⟨16, .cJ, none, REG_0, bytes offset, true⟩
  | cJr rs1 _ => ⟨16, .cJr, some rs1, REG_0, 0, true⟩
  | cJalr rs1 _ => ⟨16, .cJalr, some rs1, REG_1, 0, true⟩
  | cBeqz rs1' offset => ⟨16, .cBeqz, compressedReg rs1', none, bytes offset, true⟩
  | cBnez rs1' offset => ⟨16, .cBnez, compressedReg rs1', none, bytes offset, true⟩

/-- `c.jal` is an instruction of RV32 only. -/
def Available (xlen : Xlen) : ControlInst → Prop
  | cJal _ => xlen = .rv32
  | _ => True

def IsCompressedBranch : ControlInst → Prop
  | cBeqz _ _ | cBnez _ _ => True
  | _ => False

end ControlInst

/-! ### Offsets -/

theorem eq_signExtend_of_signExtend {n : ℕ} {x : BitVec 32} {y : BitVec n}
    (h : x.signExtend 64 = y.signExtend 64) :
    x = y.signExtend 32 := by
  apply BitVec.eq_of_getLsbD_eq
  intro i hi
  have hbit := congrArg (BitVec.getLsbD · i) h
  simp only [BitVec.getLsbD_signExtend, hi, if_true, show i < 64 by omega, decide_true,
    Bool.true_and] at hbit ⊢
  exact hbit

theorem immJ_encodeJ (rd : BitVec 5) (o : BitVec 20) :
    immJ (encodeJ rd o) = ControlInst.bytes o := by
  apply eq_signExtend_of_signExtend
  rw [immJ_eq, offsetJ]
  congr 1
  apply BitVec.eq_of_getLsbD_eq
  intro i hi
  simp only [encodeJ, BitVec.getLsbD_append, BitVec.getLsbD_extractLsb']
  interval_cases i <;> simp

theorem immB_encodeB (rs1 rs2 : BitVec 5) (funct3 : BitVec 3) (o : BitVec 12) :
    immB (encodeB rs1 rs2 funct3 o) = ControlInst.bytes o := by
  apply eq_signExtend_of_signExtend
  rw [immB_eq, offsetB]
  congr 1
  apply BitVec.eq_of_getLsbD_eq
  intro i hi
  simp only [encodeB, BitVec.getLsbD_append, BitVec.getLsbD_extractLsb']
  interval_cases i <;> simp

theorem immCJ_encodeCJ (funct3 : BitVec 3) (o : BitVec 11) :
    immCJ (encodeCJ funct3 o) = ControlInst.bytes o := by
  apply eq_signExtend_of_signExtend
  rw [immCJ_eq, offsetCJ]
  congr 1
  apply BitVec.eq_of_getLsbD_eq
  intro i hi
  simp only [encodeCJ, BitVec.getLsbD_append, BitVec.getLsbD_extractLsb']
  interval_cases i <;> simp

theorem immCB_encodeCB (funct3 rs1' : BitVec 3) (o : BitVec 8) :
    immCB (encodeCB funct3 rs1' o) = ControlInst.bytes o := by
  apply eq_signExtend_of_signExtend
  rw [immCB_eq, offsetCB]
  congr 1
  apply BitVec.eq_of_getLsbD_eq
  intro i hi
  simp only [encodeCB, BitVec.getLsbD_append, BitVec.getLsbD_extractLsb']
  interval_cases i <;> simp

theorem immI_encodeI (rd rs1 : BitVec 5) (o : BitVec 12) :
    immI (encodeI rd rs1 o) = o.signExtend 32 := by
  have hshift : encodeI rd rs1 o >>> 20 = o.setWidth 32 := by
    apply BitVec.eq_of_getLsbD_eq
    intro i hi
    simp only [encodeI, BitVec.getLsbD_ushiftRight, BitVec.getLsbD_append, BitVec.getLsbD_setWidth]
    interval_cases i <;> simp
  apply eq_signExtend_of_signExtend
  rw [immI, hshift]
  exact signExtend_setWidth (n := 12) (by decide) (by decide) o _ (by decide)

/-! ### The decoder by fields -/

section

variable {w : RV_INST} (xlen : Xlen)

theorem quadrant_ne {q : BitVec 2} (hq : w.extractLsb' 0 2 = q) {k : ℕ} (hk : k < 2 ^ 2)
    (hne : q ≠ BitVec.ofNat 2 k) :
    w &&& 0x0003 ≠ BitVec.ofNat 32 k :=
  fun heq => hne (hq.symm.trans ((quadrant_eq hk).mp heq))

theorem decodeInstruction_q1 (hq : w.extractLsb' 0 2 = 1) :
    decodeInstruction w xlen.archSize = decodeQ1Instruction w (xlen = .rv32) := by
  have h0 := quadrant_ne hq (k := 0) (by decide) (by decide)
  have h1 := (quadrant_eq (w := w) (k := 1) (by decide)).mpr hq
  cases xlen <;> exact (if_neg h0).trans (if_pos h1)

theorem decodeInstruction_q2 (hq : w.extractLsb' 0 2 = 2) :
    decodeInstruction w xlen.archSize = decodeQ2Instruction w
      (if xlen = .rv32 then .cEbreak else .ebreak) := by
  have h0 := quadrant_ne hq (k := 0) (by decide) (by decide)
  have h1 := quadrant_ne hq (k := 1) (by decide) (by decide)
  have h2 := (quadrant_eq (w := w) (k := 2) (by decide)).mpr hq
  cases xlen <;> exact (if_neg h0).trans ((if_neg h1).trans (if_pos h2))

theorem decodeInstruction_opcode {op : BitVec 7} (hop : w.extractLsb' 0 7 = op)
    (hq : op.extractLsb' 0 2 = 3) (hlong : op.extractLsb' 0 5 ≠ 0x1f) :
    decodeInstruction w xlen.archSize = decode32Instruction w ∧ w &&& 0x1f ≠ 0x1f := by
  have hlow {n : ℕ} (hn : n ≤ 7) : w.extractLsb' 0 n = op.extractLsb' 0 n := by
    rw [← hop, BitVec.extractLsb'_extractLsb'_of_le (by omega)]
  have h3 : w.extractLsb' 0 2 = 3 := (hlow (by decide)).trans hq
  have h0 := quadrant_ne h3 (k := 0) (by decide) (by decide)
  have h1 := quadrant_ne h3 (k := 1) (by decide) (by decide)
  have h2 := quadrant_ne h3 (k := 2) (by decide) (by decide)
  constructor
  · cases xlen <;> exact (if_neg h0).trans ((if_neg h1).trans (if_neg h2))
  · intro heq
    have hfield : field w 0 5 = BitVec.ofNat 32 0x1f := by
      rw [field, BitVec.ushiftRight_zero]
      exact heq
    rw [field_eq, setWidth_eq_ofNat_iff (by decide) (by decide), hlow (by decide)] at hfield
    exact hlong hfield

theorem field_opcode {k : ℕ} (hk : k < 2 ^ 7) (hop : w.extractLsb' 0 7 = BitVec.ofNat 7 k) :
    field w 0 7 = BitVec.ofNat 32 k := by
  rw [field_eq, setWidth_eq_ofNat_iff (by decide) hk, hop]

theorem decode_jal (hop : w.extractLsb' 0 7 = 0x6f) :
    decodeInstruction w xlen.archSize = some ⟨32, .jal, none, some (w.extractLsb' 7 5),
        immJ w, true⟩ := by
  obtain ⟨hlong, hsize⟩ := decodeInstruction_opcode xlen hop (by decide) (by decide)
  rw [hlong, decode32Instruction, if_neg hsize, field_opcode (k := 0x6f) (by decide) hop, reg_eq]
  rfl

theorem decode_jalr (hop : w.extractLsb' 0 7 = 0x67) (hfunct3 : w.extractLsb' 12 3 = 0) :
    decodeInstruction w xlen.archSize =
      some ⟨32, .jalr, some (w.extractLsb' 15 5), some (w.extractLsb' 7 5), immI w, true⟩ := by
  obtain ⟨hlong, hsize⟩ := decodeInstruction_opcode xlen hop (by decide) (by decide)
  have hzero : field w 12 3 = 0 := by
    rw [field_eq, hfunct3]
    rfl
  rw [hlong, decode32Instruction, if_neg hsize, field_opcode (k := 0x67) (by decide) hop, hzero,
    reg_eq, reg_eq]
  rfl

theorem branchType_funct3 (cond : BranchCond) :
    branchType (cond.funct3.setWidth 32) = some cond.instType := by
  cases cond <;> rfl

theorem decode_branch {cond : BranchCond} (hop : w.extractLsb' 0 7 = 0x63)
    (hfunct3 : w.extractLsb' 12 3 = cond.funct3) :
    decodeInstruction w xlen.archSize = some ⟨32, cond.instType, some (w.extractLsb' 15 5), none,
        immB w, true⟩ := by
  obtain ⟨hlong, hsize⟩ := decodeInstruction_opcode xlen hop (by decide) (by decide)
  have htype : branchType (field w 12 3) = some cond.instType := by
    rw [field_eq, hfunct3, branchType_funct3]
  rw [hlong, decode32Instruction, if_neg hsize, field_opcode (k := 0x63) (by decide) hop]
  dsimp only
  rw [htype, reg_eq w 15]
  rfl

/-- The quadrant with `c.jal`, `c.j` and the branches. -/
theorem decode_q1 (hw : w.toNat < 2 ^ 16) (hq : w.extractLsb' 0 2 = 1) (funct3 : ℕ)
    (hlt : funct3 < 2 ^ 3) (hfunct3 : w.extractLsb' 13 3 = BitVec.ofNat 3 funct3) :
    decodeInstruction w xlen.archSize = decodeQ1Instruction w (xlen = .rv32) ∧
      w >>> 13 = BitVec.ofNat 32 funct3 :=
  ⟨decodeInstruction_q1 xlen hq, (funct3_eq hw hlt).mpr hfunct3⟩

theorem decode_cJal (hw : w.toNat < 2 ^ 16) (hq : w.extractLsb' 0 2 = 1)
    (hfunct3 : w.extractLsb' 13 3 = 1) :
    decodeInstruction w Xlen.rv32.archSize = some ⟨16, .cJal, none, REG_1, immCJ w, true⟩ := by
  obtain ⟨hdecode, hop⟩ := decode_q1 .rv32 hw hq 1 (by decide) hfunct3
  rw [hdecode, decodeQ1Instruction, hop]
  rfl

theorem decode_cJ (hw : w.toNat < 2 ^ 16) (hq : w.extractLsb' 0 2 = 1)
    (hfunct3 : w.extractLsb' 13 3 = 5) :
    decodeInstruction w xlen.archSize = some ⟨16, .cJ, none, REG_0, immCJ w, true⟩ := by
  obtain ⟨hdecode, hop⟩ := decode_q1 xlen hw hq 5 (by decide) hfunct3
  rw [hdecode, decodeQ1Instruction, hop]
  rfl

theorem decode_cBeqz (hw : w.toNat < 2 ^ 16) (hq : w.extractLsb' 0 2 = 1)
    (hfunct3 : w.extractLsb' 13 3 = 6) :
    decodeInstruction w xlen.archSize = some ⟨16, .cBeqz, compressedRs1 w, none, immCB w,
        true⟩ := by
  obtain ⟨hdecode, hop⟩ := decode_q1 xlen hw hq 6 (by decide) hfunct3
  rw [hdecode, decodeQ1Instruction, hop]
  rfl

theorem decode_cBnez (hw : w.toNat < 2 ^ 16) (hq : w.extractLsb' 0 2 = 1)
    (hfunct3 : w.extractLsb' 13 3 = 7) :
    decodeInstruction w xlen.archSize = some ⟨16, .cBnez, compressedRs1 w, none, immCB w,
        true⟩ := by
  obtain ⟨hdecode, hop⟩ := decode_q1 xlen hw hq 7 (by decide) hfunct3
  rw [hdecode, decodeQ1Instruction, hop]
  rfl

theorem decode_cr (hw : w.toNat < 2 ^ 16) (hq : w.extractLsb' 0 2 = 2)
    (hfunct3 : w.extractLsb' 13 3 = 4)
    (hrs2 : w.extractLsb' 2 5 = 0) (hrs1 : w.extractLsb' 7 5 ≠ 0) :
    decodeInstruction w xlen.archSize =
      if w.getLsbD 12 then some ⟨16, .cJalr, some (w.extractLsb' 7 5), REG_1, 0, true⟩
      else some ⟨16, .cJr, some (w.extractLsb' 7 5), REG_0, 0, true⟩ := by
  have hop : w >>> 13 = 0x4 := (funct3_eq hw (k := 4) (by decide)).mpr hfunct3
  have hfields : w &&& 0x007c = 0 := (and_mask_eq_zero (by decide) (by decide)).mpr hrs2
  have hreg : w &&& 0x0f80 ≠ 0 :=
    fun hzero => hrs1 ((and_mask_eq_zero (by decide) (by decide)).mp hzero)
  rw [decodeInstruction_q2 xlen hq, decodeQ2Instruction, if_pos ⟨hop, hfields⟩, if_pos hreg,
    if_pos hreg, reg_eq]

theorem toNat_halfWord_lt (x : BitVec 16) : (0#16 ++ x : RV_INST).toNat < 2 ^ 16 := by
  rw [BitVec.toNat_append]
  simpa using x.isLt

end

namespace ControlInst

/-! ### The fields of the encodings -/

theorem decode_encode_jal (xlen : Xlen) (rd : BitVec 5) (offset : BitVec 20) :
    decodeInstruction (jal rd offset).encode xlen.archSize = some (jal rd offset).decoded := by
  have hop : (encodeJ rd offset).extractLsb' 0 7 = 0x6f := by
    rw [encodeJ, BitVec.extractLsb'_append_eq_of_add_le (by decide)]
    rfl
  have hrd : (encodeJ rd offset).extractLsb' 7 5 = rd := by
    rw [encodeJ, BitVec.extractLsb'_append_eq_of_le (by decide),
      BitVec.extractLsb'_append_eq_of_add_le (by decide)]
    exact BitVec.extractLsb'_eq_self
  rw [encode, decode_jal xlen hop, hrd, immJ_encodeJ]
  rfl

theorem decode_encode_jalr (xlen : Xlen) (rd rs1 : BitVec 5) (offset : BitVec 12) :
    decodeInstruction (jalr rd rs1 offset).encode xlen.archSize = some
      (jalr rd rs1 offset).decoded := by
  have hop : (encodeI rd rs1 offset).extractLsb' 0 7 = 0x67 := by
    rw [encodeI, BitVec.extractLsb'_append_eq_of_add_le (by decide)]
    rfl
  have hrd : (encodeI rd rs1 offset).extractLsb' 7 5 = rd := by
    rw [encodeI, BitVec.extractLsb'_append_eq_of_le (by decide),
      BitVec.extractLsb'_append_eq_of_add_le (by decide)]
    exact BitVec.extractLsb'_eq_self
  have hfunct3 : (encodeI rd rs1 offset).extractLsb' 12 3 = 0 := by
    rw [encodeI, BitVec.extractLsb'_append_eq_of_le (by decide), BitVec.extractLsb'_append_eq_of_le
      (by decide), BitVec.extractLsb'_append_eq_of_add_le (by decide)]
    rfl
  have hrs1 : (encodeI rd rs1 offset).extractLsb' 15 5 = rs1 := by
    rw [encodeI, BitVec.extractLsb'_append_eq_of_le (by decide), BitVec.extractLsb'_append_eq_of_le
      (by decide), BitVec.extractLsb'_append_eq_of_le (by decide),
        BitVec.extractLsb'_append_eq_of_add_le (by decide)]
    exact BitVec.extractLsb'_eq_self
  rw [encode, decode_jalr xlen hop hfunct3, hrd, hrs1, immI_encodeI]
  rfl

theorem decode_encode_branch (xlen : Xlen) (cond : BranchCond) (rs1 rs2 : BitVec 5)
    (offset : BitVec 12) :
    decodeInstruction (branch cond rs1 rs2 offset).encode xlen.archSize = some
      (branch cond rs1 rs2 offset).decoded := by
  have hop : (encodeB rs1 rs2 cond.funct3 offset).extractLsb' 0 7 = 0x63 := by
    rw [encodeB, BitVec.extractLsb'_append_eq_of_add_le (by decide)]
    rfl
  have hfunct3 : (encodeB rs1 rs2 cond.funct3 offset).extractLsb' 12 3 = cond.funct3 := by
    rw [encodeB, BitVec.extractLsb'_append_eq_of_le (by decide), BitVec.extractLsb'_append_eq_of_le
      (by decide), BitVec.extractLsb'_append_eq_of_le (by decide),
        BitVec.extractLsb'_append_eq_of_add_le (by decide)]
    exact BitVec.extractLsb'_eq_self
  have hrs1 : (encodeB rs1 rs2 cond.funct3 offset).extractLsb' 15 5 = rs1 := by
    rw [encodeB, BitVec.extractLsb'_append_eq_of_le (by decide), BitVec.extractLsb'_append_eq_of_le
      (by decide), BitVec.extractLsb'_append_eq_of_le (by decide),
        BitVec.extractLsb'_append_eq_of_le (by decide),
      BitVec.extractLsb'_append_eq_of_add_le (by decide)]
    exact BitVec.extractLsb'_eq_self
  rw [encode, decode_branch xlen hop hfunct3, hrs1, immB_encodeB]
  rfl

section

variable (funct3 : BitVec 3)

theorem toNat_encodeCJ_lt (o : BitVec 11) : (encodeCJ funct3 o).toNat < 2 ^ 16 :=
  toNat_halfWord_lt _

theorem toNat_encodeCB_lt (rs1' : BitVec 3) (o : BitVec 8) : (encodeCB funct3 rs1' o).toNat <
    2 ^ 16 := toNat_halfWord_lt _

theorem quadrant_encodeCJ (o : BitVec 11) : (encodeCJ funct3 o).extractLsb' 0 2 = 1 := by
  rw [encodeCJ, BitVec.extractLsb'_append_eq_of_add_le (by decide),
    BitVec.extractLsb'_append_eq_of_add_le (by decide)]
  rfl

theorem quadrant_encodeCB (rs1' : BitVec 3) (o : BitVec 8) : (encodeCB funct3 rs1' o).extractLsb'
    0 2 = 1 := by
  rw [encodeCB, BitVec.extractLsb'_append_eq_of_add_le (by decide),
    BitVec.extractLsb'_append_eq_of_add_le (by decide)]
  rfl

theorem funct3_encodeCJ (o : BitVec 11) : (encodeCJ funct3 o).extractLsb' 13 3 = funct3 := by
  apply BitVec.eq_of_getLsbD_eq
  intro i hi
  simp only [encodeCJ, BitVec.getLsbD_append, BitVec.getLsbD_extractLsb']
  interval_cases i <;> simp

theorem funct3_encodeCB (rs1' : BitVec 3) (o : BitVec 8) : (encodeCB funct3 rs1' o).extractLsb' 13
    3 = funct3 := by
  apply BitVec.eq_of_getLsbD_eq
  intro i hi
  simp only [encodeCB, BitVec.getLsbD_append, BitVec.getLsbD_extractLsb']
  interval_cases i <;> simp

/-- The two bits that the decoder takes for the register. -/
theorem compressedRs1_encodeCB (rs1' : BitVec 3) (o : BitVec 8) :
    compressedRs1 (encodeCB funct3 rs1' o) = some ((rs1'.setWidth 2).setWidth 5) := by
  have hlow : (encodeCB funct3 rs1' o).extractLsb' 7 2 = rs1'.setWidth 2 := by
    apply BitVec.eq_of_getLsbD_eq
    intro i hi
    simp only [encodeCB, BitVec.getLsbD_append, BitVec.getLsbD_extractLsb', BitVec.getLsbD_setWidth]
    interval_cases i <;> simp
  rw [compressedRs1, field_eq, hlow, BitVec.setWidth_setWidth_of_le _ (by decide)]

end

theorem decode_encode_cJal (offset : BitVec 11) :
    decodeInstruction (cJal offset).encode Xlen.rv32.archSize = some (cJal offset).decoded := by
  rw [encode, decode_cJal (toNat_encodeCJ_lt 1 offset) (quadrant_encodeCJ 1 offset)
    (funct3_encodeCJ 1 offset), immCJ_encodeCJ]
  rfl

theorem decode_encode_cJ (xlen : Xlen) (offset : BitVec 11) :
    decodeInstruction (cJ offset).encode xlen.archSize = some (cJ offset).decoded := by
  rw [encode, decode_cJ xlen (toNat_encodeCJ_lt 5 offset) (quadrant_encodeCJ 5 offset)
    (funct3_encodeCJ 5 offset), immCJ_encodeCJ]
  rfl

theorem decode_encode_cBeqz (xlen : Xlen) (rs1' : BitVec 3) (offset : BitVec 8) :
    decodeInstruction (cBeqz rs1' offset).encode xlen.archSize =
      some { (cBeqz rs1' offset).decoded with rs1 := some ((rs1'.setWidth 2).setWidth 5) } := by
  rw [encode, decode_cBeqz xlen (toNat_encodeCB_lt 6 rs1' offset) (quadrant_encodeCB 6 rs1' offset)
    (funct3_encodeCB 6 rs1' offset), immCB_encodeCB, compressedRs1_encodeCB]
  rfl

theorem decode_encode_cBnez (xlen : Xlen) (rs1' : BitVec 3) (offset : BitVec 8) :
    decodeInstruction (cBnez rs1' offset).encode xlen.archSize =
      some { (cBnez rs1' offset).decoded with rs1 := some ((rs1'.setWidth 2).setWidth 5) } := by
  rw [encode, decode_cBnez xlen (toNat_encodeCB_lt 7 rs1' offset) (quadrant_encodeCB 7 rs1' offset)
    (funct3_encodeCB 7 rs1' offset), immCB_encodeCB, compressedRs1_encodeCB]
  rfl

theorem decode_encodeCR (xlen : Xlen) (rs1 : BitVec 5) (h : rs1 ≠ 0) (funct4 : BitVec 4)
    (hfunct4 : funct4.extractLsb' 1 3 = 4) :
    decodeInstruction (encodeCR rs1 funct4) xlen.archSize =
      if funct4.getLsbD 0 then some ⟨16, .cJalr, some rs1, REG_1, 0, true⟩
        else some ⟨16, .cJr, some rs1, REG_0, 0, true⟩ := by
  have hw : (encodeCR rs1 funct4).toNat < 2 ^ 16 := toNat_halfWord_lt _
  have hq : (encodeCR rs1 funct4).extractLsb' 0 2 = 2 := by
    rw [encodeCR, BitVec.extractLsb'_append_eq_of_add_le (by decide),
      BitVec.extractLsb'_append_eq_of_add_le (by decide)]
    rfl
  have hrs2 : (encodeCR rs1 funct4).extractLsb' 2 5 = 0 := by
    rw [encodeCR, BitVec.extractLsb'_append_eq_of_add_le (by decide),
      BitVec.extractLsb'_append_eq_of_le (by decide), BitVec.extractLsb'_append_eq_of_add_le
        (by decide)]
    rfl
  have hrs1 : (encodeCR rs1 funct4).extractLsb' 7 5 = rs1 := by
    rw [encodeCR, BitVec.extractLsb'_append_eq_of_add_le (by decide),
      BitVec.extractLsb'_append_eq_of_le (by decide), BitVec.extractLsb'_append_eq_of_le
        (by decide), BitVec.extractLsb'_append_eq_of_add_le (by decide)]
    exact BitVec.extractLsb'_eq_self
  have hfunct3 : (encodeCR rs1 funct4).extractLsb' 13 3 = 4 := by
    rw [← hfunct4]
    apply BitVec.eq_of_getLsbD_eq
    intro i hi
    simp only [encodeCR, BitVec.getLsbD_append, BitVec.getLsbD_extractLsb']
    interval_cases i <;> simp
  have hbit : (encodeCR rs1 funct4).getLsbD 12 = funct4.getLsbD 0 := by
    simp only [encodeCR, BitVec.getLsbD_append]
    simp
  rw [decode_cr xlen hw hq hfunct3 hrs2 (by rw [hrs1]; exact h), hrs1, hbit]

theorem decode_encode_cJr (xlen : Xlen) (rs1 : BitVec 5) (h : rs1 ≠ 0) :
    decodeInstruction (cJr rs1 h).encode xlen.archSize = some (cJr rs1 h).decoded :=
  (decode_encodeCR xlen rs1 h 8 (by decide)).trans rfl

theorem decode_encode_cJalr (xlen : Xlen) (rs1 : BitVec 5) (h : rs1 ≠ 0) :
    decodeInstruction (cJalr rs1 h).encode xlen.archSize = some (cJalr rs1 h).decoded :=
  (decode_encodeCR xlen rs1 h 9 (by decide)).trans rfl

/-! ### The result -/

/-- No register is the one that two bits of its field say. -/
theorem compressedReg_ne (rs1' : BitVec 3) :
    some ((rs1'.setWidth 2).setWidth 5) ≠ compressedReg rs1' := by
  revert rs1'
  decide

/-- **Encoding and decoding**: a jump or branch is read back as it is if and only if it is not one
of the two with a register field of three bits. -/
theorem decode_encode_iff (xlen : Xlen) (i : ControlInst) (havailable : i.Available xlen) :
    decodeInstruction i.encode xlen.archSize = some i.decoded ↔ ¬i.IsCompressedBranch := by
  have hwrong {d : DecodedInst} {r : Reg} (hne : r ≠ d.rs1) : some { d with rs1 := r } ≠ some d :=
    fun heq => hne (congrArg DecodedInst.rs1 (Option.some.inj heq))
  cases i with
  | jal rd offset => exact iff_of_true (decode_encode_jal xlen rd offset) not_false
  | jalr rd rs1 offset => exact iff_of_true (decode_encode_jalr xlen rd rs1 offset) not_false
  | branch cond rs1 rs2 offset =>
    exact iff_of_true (decode_encode_branch xlen cond rs1 rs2 offset) not_false
  | cJal offset =>
    cases (show xlen = .rv32 from havailable)
    exact iff_of_true (decode_encode_cJal offset) not_false
  | cJ offset => exact iff_of_true (decode_encode_cJ xlen offset) not_false
  | cJr rs1 h => exact iff_of_true (decode_encode_cJr xlen rs1 h) not_false
  | cJalr rs1 h => exact iff_of_true (decode_encode_cJalr xlen rs1 h) not_false
  | cBeqz rs1' offset =>
    rw [decode_encode_cBeqz]
    exact iff_of_false (hwrong (compressedReg_ne rs1')) (not_not.mpr trivial)
  | cBnez rs1' offset =>
    rw [decode_encode_cBnez]
    exact iff_of_false (hwrong (compressedReg_ne rs1')) (not_not.mpr trivial)

/-- A call 16 half-words ahead, on a 32-bit machine. -/
theorem decode_encode_iff_cJal : decodeInstruction (cJal 16).encode Xlen.rv32.archSize = some
    (cJal 16).decoded ↔
    ¬(cJal 16).IsCompressedBranch :=
  decode_encode_iff .rv32 (cJal 16) rfl

/-- `c.beqz a0` is read as a branch on x2, the stack pointer. -/
theorem not_decode_encode : ¬ ∀ (xlen : Xlen) (i : ControlInst), i.Available xlen →
    decodeInstruction i.encode xlen.archSize = some i.decoded := by
  intro hall
  have hbeqz := hall .rv32 (cBeqz 2 4) trivial
  exact absurd hbeqz (by decide)

end ControlInst

end Isa

end TraceDecoder
