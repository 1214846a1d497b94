import TraceDecoder.NextAddr

/-!
# Control flow of RISC-V programs

What an instruction word does to control flow, read off the instruction formats of the RISC-V
manual: its size, the offset of jumps and branches, and the link-register hints by which a
return-address stack is kept. Nothing here looks at the decoder.
-/

namespace TraceDecoder.Isa

inductive Xlen
  | rv32 | rv64
  deriving DecidableEq, Repr

def Xlen.archSize : Xlen → ℕ
  | rv32 => 32
  | rv64 => 64

def Xlen.wrap : Xlen → ADDRESS → ADDRESS
  | rv32, a => (a.setWidth 32).setWidth 64
  | rv64, a => a

def Xlen.Fits (xlen : Xlen) (a : ADDRESS) : Prop := xlen.wrap a = a

instance (xlen : Xlen) : DecidablePred xlen.Fits :=
  fun a => inferInstanceAs (Decidable (xlen.wrap a = a))

@[simp] theorem Xlen.wrap_rv64 (a : ADDRESS) : rv64.wrap a = a := rfl

/-- What the link registers of an indirect jump say about the return-address stack. -/
inductive Hint
  | jump | call | ret | swap
  deriving DecidableEq, Repr

inductive Flow
  | sequential
  | jump (offset : ADDRESS) (link : Bool)
  | branch (offset : ADDRESS)
  | indirect (hint : Hint)
  | trap
  | trapReturn
  deriving DecidableEq, Repr

variable (w : RV_INST)

def rd : BitVec 5 := w.extractLsb' 7 5
def rs1 : BitVec 5 := w.extractLsb' 15 5

def link (r : BitVec 5) : Bool := r = 1 ∨ r = 5

def offsetJ : ADDRESS :=
  (w.extractLsb' 31 1 ++ w.extractLsb' 12 8 ++ w.extractLsb' 20 1 ++ w.extractLsb' 21 10 ++
    0#1).signExtend 64

def offsetB : ADDRESS :=
  (w.extractLsb' 31 1 ++ w.extractLsb' 7 1 ++ w.extractLsb' 25 6 ++ w.extractLsb' 8 4 ++
    0#1).signExtend 64

def offsetCJ : ADDRESS :=
  (w.extractLsb' 12 1 ++ w.extractLsb' 8 1 ++ w.extractLsb' 9 2 ++ w.extractLsb' 6 1 ++
    w.extractLsb' 7 1 ++ w.extractLsb' 2 1 ++ w.extractLsb' 11 1 ++ w.extractLsb' 3 3 ++
      0#1).signExtend 64

def offsetCB : ADDRESS :=
  (w.extractLsb' 12 1 ++ w.extractLsb' 5 2 ++ w.extractLsb' 2 1 ++ w.extractLsb' 10 2 ++
    w.extractLsb' 3 2 ++ 0#1).signExtend 64

/-- The hints of `jalr`: a link register is popped unless it is also the one that is pushed. -/
def hint (rd rs1 : BitVec 5) : Hint :=
  if link rd then (if link rs1 ∧ rd ≠ rs1 then .swap else .call)
  else if link rs1 then .ret else .jump

def flow32 : Flow :=
  if w.extractLsb' 0 7 = 0x6f then .jump (offsetJ w) (link (rd w))
  else if w.extractLsb' 0 7 = 0x67 ∧ w.extractLsb' 12 3 = 0 then .indirect (hint (rd w) (rs1 w))
  else if w.extractLsb' 0 7 = 0x63 ∧ w.extractLsb' 12 3 ≠ 2 ∧ w.extractLsb' 12 3 ≠ 3 then
    .branch (offsetB w)
  else if w = 0x00000073 ∨ w = 0x00100073 then .trap
  else if w = 0x00200073 ∨ w = 0x10200073 ∨ w = 0x30200073 then .trapReturn
  else .sequential

/-- `c.jal` is RV32 only; `c.jr`, `c.jalr` and `c.ebreak` share `funct3` 100 of quadrant 2. -/
def flow16 (xlen : Xlen) : Flow :=
  if w.extractLsb' 0 2 = 1 ∧ w.extractLsb' 13 3 = 1 ∧ xlen = .rv32 then .jump (offsetCJ w) true
  else if w.extractLsb' 0 2 = 1 ∧ w.extractLsb' 13 3 = 5 then .jump (offsetCJ w) false
  else if w.extractLsb' 0 2 = 1 ∧ (w.extractLsb' 13 3 = 6 ∨ w.extractLsb' 13 3 = 7) then
    .branch (offsetCB w)
  else if w.extractLsb' 0 2 = 2 ∧ w.extractLsb' 13 3 = 4 ∧ w.extractLsb' 2 5 = 0 then
    if rd w ≠ 0 then .indirect (hint (if w.getLsbD 12 then 1 else 0) (rd w))
    else if w.getLsbD 12 then .trap
    else .sequential
  else .sequential

def size : ℕ := if w.extractLsb' 0 2 = 3 then 4 else 2

def flow (xlen : Xlen) : Flow := if w.extractLsb' 0 2 = 3 then flow32 w else flow16 w xlen

end TraceDecoder.Isa
