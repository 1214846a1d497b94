import TraceDecoder.Isa

/-!
# Execution paths

Paths of a program through its image, by the rules of the instruction set and with a return-address
stack that never runs out. `room` says at which depths of the stack a call may be made: everywhere,
or only where a bounded stack has room. `fits` says to which addresses a path may go: to all, the
program counter wrapping round, or only inside the address space.
-/

namespace TraceDecoder

open Isa

/-- An instruction of a path: `size` in bytes, and whether it is a
conditional branch that is taken. -/
structure Visit where
  addr : ADDRESS
  size : ℕ
  taken : Option Bool
  deriving DecidableEq, Repr

variable (img : Image) (xlen : Xlen) (room : ℕ → Prop) (fits : ADDRESS → Prop)

/-- How a path goes on after an instruction: the stack before and after it, and the address behind.
Return addresses are on the stack as sums, and wrap round when the path goes to them. -/
inductive Passes : List ADDRESS → Visit → List ADDRESS → ADDRESS → Prop
  | sequential {stack a w} (hw : img.word a = some w) (hf : flow w xlen = .sequential)
      (hfits : fits (a + BitVec.ofNat 64 (size w))) :
      Passes stack ⟨a, size w, none⟩ stack (xlen.wrap (a + BitVec.ofNat 64 (size w)))
  | jump {stack a w offset} (hw : img.word a = some w) (hf : flow w xlen = .jump offset false)
      (hfits : fits (a + offset)) :
      Passes stack ⟨a, size w, none⟩ stack (xlen.wrap (a + offset))
  | call {stack a w offset} (hw : img.word a = some w) (hf : flow w xlen = .jump offset true)
      (hroom : room stack.length) (hfits : fits (a + offset)) :
      Passes stack ⟨a, size w, none⟩ ((a + BitVec.ofNat 64 (size w)) :: stack)
        (xlen.wrap (a + offset))
  | branch {stack a w offset} (taken : Bool) (hw : img.word a = some w) (hf : flow w xlen =
      .branch offset) (hfits : fits (if taken then a + offset else a + BitVec.ofNat 64 (size w))) :
      Passes stack ⟨a, size w, some taken⟩ stack
        (xlen.wrap (if taken then a + offset else a + BitVec.ofNat 64 (size w)))
  | ret {stack a w target} (hw : img.word a = some w) (hf : flow w xlen = .indirect .ret)
      (hfits : fits target) :
      Passes (target :: stack) ⟨a, size w, none⟩ stack (xlen.wrap target)
  | swap {stack a w target} (hw : img.word a = some w) (hf : flow w xlen = .indirect .swap)
      (hfits : fits target) :
      Passes (target :: stack) ⟨a, size w, none⟩ ((a + BitVec.ofNat 64 (size w)) :: stack)
        (xlen.wrap target)

/-- The jumps whose target cannot be inferred from the program and the stack. -/
inductive Escapes : List ADDRESS → Visit → Prop
  | jump {stack a w} (hw : img.word a = some w) (hf : flow w xlen = .indirect .jump) :
      Escapes stack ⟨a, size w, none⟩
  | call {stack a w} (hw : img.word a = some w) (hf : flow w xlen = .indirect .call) :
      Escapes stack ⟨a, size w, none⟩
  | ret {a w} (hw : img.word a = some w) (hf : flow w xlen = .indirect .ret) :
      Escapes [] ⟨a, size w, none⟩
  | swap {a w} (hw : img.word a = some w) (hf : flow w xlen = .indirect .swap) :
      Escapes [] ⟨a, size w, none⟩
  | trapReturn {stack a w} (hw : img.word a = some w) (hf : flow w xlen = .trapReturn) :
      Escapes stack ⟨a, size w, none⟩

/-- A path from an address and a stack to a jump that cannot be inferred. -/
inductive HtmPath : List ADDRESS → ADDRESS → List Visit → Prop
  | last {stack v} (h : Escapes img xlen stack v) : HtmPath stack v.addr [v]
  | step {stack v stack' a path} (h : Passes img xlen room fits stack v stack' a)
      (hpath : HtmPath stack' a path) : HtmPath stack v.addr (v :: path)

/-- A path without calls and returns of which exactly the last instruction is a taken branch. -/
inductive BtmPath : ADDRESS → List Visit → ADDRESS → Prop
  | last {a w offset} (hw : img.word a = some w) (hf : flow w xlen = .branch offset)
      (hfits : fits (a + offset)) : BtmPath a [⟨a, size w, some true⟩] (xlen.wrap (a + offset))
  | sequential {a w path target} (hw : img.word a = some w) (hf : flow w xlen = .sequential)
      (hfits : fits (a + BitVec.ofNat 64 (size w)))
      (hpath : BtmPath (xlen.wrap (a + BitVec.ofNat 64 (size w))) path target) :
      BtmPath a (⟨a, size w, none⟩ :: path) target
  | jump {a w offset link path target} (hw : img.word a = some w) (hf : flow w xlen =
      .jump offset link) (hfits : fits (a + offset)) (hpath : BtmPath (xlen.wrap (a + offset))
        path target) :
      BtmPath a (⟨a, size w, none⟩ :: path) target
  | branch {a w offset path target} (hw : img.word a = some w) (hf : flow w xlen = .branch offset)
      (hfits : fits (a + BitVec.ofNat 64 (size w)))
      (hpath : BtmPath (xlen.wrap (a + BitVec.ofNat 64 (size w))) path target) :
      BtmPath a (⟨a, size w, some false⟩ :: path) target

def halfWords : List Visit → ℤ
  | [] => 0
  | v :: path => (v.size : ℤ) / 2 + halfWords path

def outcomes (path : List Visit) : List Bool := path.filterMap Visit.taken

def Visit.brFlag (v : Visit) : BranchFlags :=
  match v.taken with
  | none => .none
  | some true => .taken
  | some false => .notTaken

theorem outcomes_cons (v : Visit) (path : List Visit) :
    outcomes (v :: path) = v.taken.toList ++ outcomes path := by
  cases h : v.taken <;> simp [outcomes, h]

end TraceDecoder
