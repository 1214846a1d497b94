import TraceDecoder.Basic

/-!
# Instruction decode

`decodeInstruction` and the functions it dispatches to. Only control flow is decoded: everything the
decoder does not need is `unknown`. The RV32 and RV64 functions differ in `c.jal`, which RV64 does
not have, and in what `c.ebreak` is called.
-/

namespace TraceDecoder

/-- `none` is `REG_unknown`. -/
abbrev Reg := Option (BitVec 5)

def REG_0 : Reg := some 0
def REG_1 : Reg := some 1
def REG_5 : Reg := some 5

/-- `inst_size` is in bits. -/
structure DecodedInst where
  inst_size : ℕ
  inst_type : InstType
  rs1 : Reg
  rd : Reg
  immediate : BitVec 32
  is_branch : Bool
  deriving DecidableEq, Repr

namespace Disassembler

variable (instruction : RV_INST)

/-- `MOVE_BIT(instruction,s,d)`, or-ed over the given pairs. -/
def moveBits (moves : List (ℕ × ℕ)) : BitVec 32 :=
  moves.foldr (fun (s, d) t => (if instruction.getLsbD s then 1#32 <<< d else 0) ||| t) 0

/-- Sign extension of an offset by or-ing in the bits above `sign`. -/
def signExtend (sign : ℕ) (high t : BitVec 32) : BitVec 32 :=
  if t.getLsbD sign then t ||| high else t

def plain (inst_size : ℕ) : DecodedInst := ⟨inst_size, .unknown, none, none, 0, false⟩

def field (lo len : ℕ) : BitVec 32 := (instruction >>> lo) &&& (BitVec.allOnes len).setWidth 32

def reg (lo : ℕ) : Reg := some ((field instruction lo 5).setWidth 5)

/-- The offset of `c.j` and `c.jal`. -/
def immCJ : BitVec 32 :=
  signExtend 11 0xfffff000 (moveBits instruction [(3, 1), (4, 2), (5, 3), (11, 4), (2, 5),
    (7, 6), (6, 7), (9, 8), (10, 9), (8, 10), (12, 11)])

/-- The offset of `c.beqz` and `c.bnez`. -/
def immCB : BitVec 32 :=
  signExtend 8 0xfffffe00 (moveBits instruction [(3, 1), (4, 2), (10, 3), (11, 4), (2, 5),
    (5, 6), (6, 7), (12, 8)])

def immJ : BitVec 32 :=
  signExtend 20 0xffe00000 (moveBits instruction [(21, 1), (22, 2), (23, 3), (24, 4), (25, 5),
    (26, 6), (27, 7), (28, 8), (29, 9), (30, 10), (20, 11), (12, 12), (13, 13), (14, 14), (15, 15),
      (16, 16),
    (17, 17), (18, 18), (19, 19), (31, 20)])

def immI : BitVec 32 := signExtend 11 0xfffff000 (instruction >>> 20)

def immB : BitVec 32 :=
  signExtend 12 0xffffe000 (moveBits instruction [(8, 1), (9, 2), (10, 3), (11, 4), (25, 5),
    (26, 6), (27, 7), (28, 8), (29, 9), (30, 10), (7, 11), (31, 12)])

def decodeQ0Instruction : Option DecodedInst :=
  if instruction &&& 0x0003 ≠ 0 then none else some (plain 16)

def decodeRV32Q0Instruction : Option DecodedInst := decodeQ0Instruction instruction
def decodeRV64Q0Instruction : Option DecodedInst := decodeQ0Instruction instruction

def compressedRs1 : Reg := some ((field instruction 7 2).setWidth 5)

def decodeQ1Instruction (hasCJal : Bool) : Option DecodedInst :=
  let op := instruction >>> 13
  if op = 0x1 ∧ hasCJal then some ⟨16, .cJal, none, REG_1, immCJ instruction, true⟩
  else if op = 0x5 then some ⟨16, .cJ, none, REG_0, immCJ instruction, true⟩
  else if op = 0x6 then some ⟨16, .cBeqz, compressedRs1 instruction, none, immCB instruction, true⟩
  else if op = 0x7 then some ⟨16, .cBnez, compressedRs1 instruction, none, immCB instruction, true⟩
  else some (plain 16)

def decodeRV32Q1Instruction : Option DecodedInst := decodeQ1Instruction instruction true
def decodeRV64Q1Instruction : Option DecodedInst := decodeQ1Instruction instruction false

def decodeQ2Instruction (ebreakType : InstType) : Option DecodedInst :=
  if instruction >>> 13 = 0x4 ∧ instruction &&& 0x007c = 0 then
    if instruction.getLsbD 12 then
      if instruction &&& 0x0f80 ≠ 0 then some ⟨16, .cJalr, reg instruction 7, REG_1, 0, true⟩
      else some ⟨16, ebreakType, none, none, 0, true⟩
    else if instruction &&& 0x0f80 ≠ 0 then some ⟨16, .cJr, reg instruction 7, REG_0, 0, true⟩
    else some (plain 16)
  else some (plain 16)

def decodeRV32Q2Instruction : Option DecodedInst := decodeQ2Instruction instruction .cEbreak
def decodeRV64Q2Instruction : Option DecodedInst := decodeQ2Instruction instruction .ebreak

/-- The conditional branch that `funct3` selects. -/
def branchType (funct3 : BitVec 32) : Option InstType :=
  if funct3 = 0 then some .beq else if funct3 = 1 then some .bne else if funct3 = 4 then some .blt
  else if funct3 = 5 then some .bge else if funct3 = 6 then some .bltu
  else if funct3 = 7 then some .bgeu else none

/-- The widths of vector loads, stores and atomics; the others are floating point or scalar. -/
def vectorWidth (funct3 : BitVec 32) : Bool := funct3 = 0 ∨ funct3 = 5 ∨ funct3 = 6 ∨ funct3 = 7

def systemType : InstType :=
  if instruction = 0x00200073 then .uret else if instruction = 0x10200073 then .sret
  else if instruction = 0x30200073 then .mret else if instruction = 0x00000073 then .ecall
  else if instruction = 0x00100073 then .ebreak else .unknown

/-- The `switch (instruction & 0x7f)`, the same for both word sizes. -/
def decode32Instruction : Option DecodedInst :=
  if instruction &&& 0x1f = 0x1f then none
  else
    let opcode := field instruction 0 7
    let funct3 := field instruction 12 3
    if opcode = 0x6f then some ⟨32, .jal, none, reg instruction 7, immJ instruction, true⟩
    else if opcode = 0x67 then
      if funct3 = 0 then
        some ⟨32, .jalr, reg instruction 15, reg instruction 7, immI instruction, true⟩
      else some (plain 32)
    else if opcode = 0x63 then
      match branchType funct3 with
      | some t => some ⟨32, t, reg instruction 15, none, immB instruction, true⟩
      | none => some (plain 32)
    else if opcode = 0x73 then
      match systemType instruction with
      | .unknown => some (plain 32)
      | t => some ⟨32, t, none, none, 0, true⟩
    else if opcode = 0x07 then
      some { plain 32 with inst_type := if vectorWidth funct3 then .vectLoad else .unknown }
    else if opcode = 0x27 then
      some { plain 32 with inst_type := if vectorWidth funct3 then .vectStore else .unknown }
    else if opcode = 0x2f then
      some { plain 32 with
        inst_type :=
          if vectorWidth funct3 then (if instruction.getLsbD 26 then .vectAmoWW else .vectAmo)
          else .unknown }
    else if opcode = 0x57 then
      some { plain 32 with inst_type := if funct3.toNat ≤ 6 then .vectArith else .vectConfig }
    else some (plain 32)

def decodeRV32Instruction : Option DecodedInst := decode32Instruction instruction
def decodeRV64Instruction : Option DecodedInst := decode32Instruction instruction

/-- `none` for the return code 1. -/
def decodeInstruction (archSize : ℕ) : Option DecodedInst :=
  let quadrant := instruction &&& 0x0003
  if archSize = 32 then
    if quadrant = 0 then decodeRV32Q0Instruction instruction
    else if quadrant = 1 then decodeRV32Q1Instruction instruction
    else if quadrant = 2 then decodeRV32Q2Instruction instruction
    else decodeRV32Instruction instruction
  else if archSize = 64 then
    if quadrant = 0 then decodeRV64Q0Instruction instruction
    else if quadrant = 1 then decodeRV64Q1Instruction instruction
    else if quadrant = 2 then decodeRV64Q2Instruction instruction
    else decodeRV64Instruction instruction
  else none

/-- `none` for `DQERR_ERR`: instructions longer than 32 bits. -/
def decodeInstructionSize : Option ℕ :=
  if instruction &&& 0x0003 ≠ 0x0003 then some 16
  else if instruction &&& 0x1f = 0x1f then none
  else some 32

end Disassembler

end TraceDecoder
