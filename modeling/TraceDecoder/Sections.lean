import TraceDecoder.Basic

/-!
# Sections, symbols and source files

What is kept of an elf file: the sections with code and, for each of their half-words, the
instruction, its text and the source line; the symbols; and the names of the source files. A list
that the code links by `next` is the list of its elements.
-/

namespace TraceDecoder

namespace Section

def sect_CONTENTS : BitVec 32 := 1 <<< 0
def sect_ALLOC : BitVec 32 := 1 <<< 1
def sect_LOAD : BitVec 32 := 1 <<< 2
def sect_READONLY : BitVec 32 := 1 <<< 3
def sect_DATA : BitVec 32 := 1 <<< 4
def sect_CODE : BitVec 32 := 1 <<< 5
def sect_THREADLOCAL : BitVec 32 := 1 <<< 6
def sect_DEBUGGING : BitVec 32 := 1 <<< 7
def sect_OCTETS : BitVec 32 := 1 <<< 8

end Section

/-- An array that `new` has given; a cell is `none` before something is written to it. -/
abbrev Cells (α : Type) := List (Option α)

namespace Cells

variable {α : Type}

/-- A new array, and the loop that writes `a` to the cells in front of `inits`. -/
def allocate (count : ℕ) (inits : ℤ) (a : α) : Cells α :=
  (List.range count).map fun (i : ℕ) => if (i : ℤ) < inits then some a else none

/-- Writes a cell. There is nothing to write for an index outside the array. -/
def store (cells : Cells α) (index : ℤ) (a : α) : Cells α :=
  if index < 0 then cells else cells.set index.toNat (some a)

end Cells

structure Section where
  name : List Char
  (startAddr endAddr vmaOffset : ADDRESS)
  (flags size offset align : BitVec 32)
  code : Option (Cells (BitVec 16)) := none
  fName : Option (Cells (Option (List Char))) := none
  line : Option (Cells (BitVec 32)) := none
  diss : Option (Cells (Option (List Char))) := none
  deriving DecidableEq, Repr

namespace Section

def halves (sp : Section) : BitVec 32 := (sp.size + 1) / 2

def initHalves (sp : Section) : ℤ := (sp.size + 1).toInt.tdiv 2

def allocate (sp : Section) : Section where
  __ := sp
  code := some (sp.code.getD (.allocate (sp.halves + 1).toNat (sp.initHalves + 1) 0))
  diss := some (sp.diss.getD (.allocate sp.halves.toNat sp.initHalves none))
  line := some (sp.line.getD (.allocate sp.halves.toNat sp.initHalves 0))
  fName := some (sp.fName.getD (.allocate sp.halves.toNat sp.initHalves none))

def getSectionByName (secName : List Char) (lst : List Section) : Option Section :=
  lst.find? fun sp => sp.name = secName

/-- Puts a section back in the place of the one that was found by its name. -/
def update (sp : Section) : List Section → List Section
  | [] => []
  | sp' :: lst => if sp'.name = sp.name then sp :: lst else sp' :: update sp lst

end Section

/-- The file symbol is given by its place in the list of the symbols, counted from the end. -/
structure Sym where
  name : List Char
  flags : BitVec 32
  inSection : Option (List Char)
  (vmaOffset address size : BitVec 64)
  srcFile : Option ℕ
  deriving DecidableEq, Repr

structure SrcFileRoot where
  files : List (List Char)
  deriving DecidableEq, Repr

def SrcFileRoot.addFile (root : SrcFileRoot) (fName : List Char) : List Char × SrcFileRoot :=
  (fName, if fName ∈ root.files then root else ⟨fName :: root.files⟩)

end TraceDecoder
