import TraceDecoder.ObjDumpDisassembly

/-!
# The parser for the tables of an elf file

The symbol table, and the parse of the whole output of objdump.
-/

namespace TraceDecoder

open CString Dialogue

namespace ObjDump

namespace Parser

/-! ### The symbols -/

def symbolName (symName : List Char) : Parser (List Char) := do
  let (type, lex) ← getNextLex 256
  match type with
  | .string => do
    write (.copy 256 lex)
    let _ ← expect 256 .eol
    pure lex
  | .colon => do
    let lex ← expect 256 .string
    write (.join 256 (symName ++ [':']))
    write (.join 256 (symName ++ ':' :: lex))
    let _ ← expect 256 .eol
    pure (symName ++ ':' :: lex)
  | .eol => pure symName
  | _ => err

/-- The section, the name if there is one, the flags and the size of a symbol. -/
def parseSymbol : Parser (List Char × Option (List Char) × BitVec 32 × BitVec 64) := do
  let symFlags ← parseFixedField
  let secName ← expect 256 .string
  let symSize ← hexNumber 256
  let (type, symName) ← getNextLex 256
  match type with
  | .eol => pure (secName, none, symFlags, symSize)
  | .string => do
    let symName ← symbolName symName
    pure (secName, some symName, symFlags, symSize)
  | _ => err

structure SymTable where
  syms : List Sym
  file : Option ℕ := none
  deriving DecidableEq, Repr

namespace SymTable

variable (s : SymTable)

def nextFile (symFlags : BitVec 32) : Option ℕ :=
  if symFlags &&& symFile ≠ 0 then some s.syms.length
  else if symFlags ≠ symLocal ∧ symFlags ≠ symLocal ||| symFunc then none
  else s.file

def srcFile (symFlags : BitVec 32) : Option ℕ :=
  if symFlags &&& symFile ≠ 0 ∨ (symFlags ≠ symLocal ∧ symFlags ≠ symLocal ||| symFunc) then none
    else s.file

def add (codeSectionLst : List Section) (vmaOffset addr : ADDRESS) (secName symName : List Char)
    (symFlags : BitVec 32) (symSize : BitVec 64) : SymTable where
  syms :=
    { name := symName
      flags := symFlags
      inSection := (Section.getSectionByName secName codeSectionLst).map Section.name
      vmaOffset :=
        ((Section.getSectionByName secName codeSectionLst).map Section.vmaOffset).getD vmaOffset
      address := addr
      size := symSize
      srcFile := s.srcFile symFlags } :: s.syms
  file := s.nextFile symFlags

def skip (symFlags : BitVec 32) : SymTable :=
  { s with file := if symFlags &&& symFile ≠ 0 then none else s.file }

end SymTable

def symbols (codeSectionLst : List Section) (vmaOffset : ADDRESS) :
    ℕ → SymTable → Parser (List Sym × ObjDumpTokenType × List Char)
  | 0, _ => .fail .outOfFuel
  | n + 1, s => do
    let r ← getNextLex 256
    let (_, type, lex) ← skipEols 256 n false r
    if type ≠ .string then err
    else if strcasecmp "no".toList lex then do
      keyword 256 "symbols".toList
      let r ← getNextLex 256
      let (_, r) ← skipEols 256 n false r
      pure (s.syms, r)
    else
      match isStringAHexNumber lex with
      | none => do
        write (.copy 256 lex)
        pure (s.syms, type, lex)
      | some addr => do
        let (secName, symName, symFlags, symSize) ← parseSymbol
        match symName with
        | some symName =>
          symbols codeSectionLst vmaOffset n (s.add codeSectionLst vmaOffset addr secName symName
            symFlags symSize)
        | none => symbols codeSectionLst vmaOffset n (s.skip symFlags)

def parseSymbolTable (fuel : ℕ) (syms : List Sym) (codeSectionLst : List Section)
    (vmaOffset : ADDRESS) :
    Parser (List Sym × ObjDumpTokenType × List Char) := do
  keyword 256 "table".toList
  let _ ← expect 256 .colon
  let _ ← expect 256 .eol
  symbols codeSectionLst vmaOffset fuel { syms := syms }

/-! ### All of it -/

structure ElfData where
  archSize : ℕ
  codeSectionLst : List Section
  symLst : List Sym
  srcFileRoot : SrcFileRoot
  deriving DecidableEq, Repr

/-- The type with the size of the architecture; for a blob it has to be known. -/
def archType (archSize : ℕ) (et : ElfType) : Option (ElfType × ℕ) :=
  match et with
  | .unknown => none
  | .little64 => some (.little64, 64)
  | .little32 => some (.little32, 32)
  | .binary32 | .binary64 =>
    if archSize = 32 then some (.binary32, 32) else if archSize = 64 then some (.binary64, 64)
      else none

def isBlob (et : ElfType) : Bool := et = .binary32 ∨ et = .binary64

def blobSection (startAddr endAddr : ADDRESS) : Section where
  name := blobName startAddr
  startAddr := startAddr
  endAddr := endAddr
  vmaOffset := 0
  flags := Section.sect_CONTENTS ||| Section.sect_ALLOC ||| Section.sect_LOAD |||
    Section.sect_READONLY ||| Section.sect_CODE
  size := (endAddr - startAddr).setWidth 32
  offset := 0
  align := 1 <<< 2

/-- The loop over the disassemblies and the symbol tables, for the sections of this file. -/
def tables (eType : ElfType) (vmaOffset startAddr : ADDRESS) :
    ℕ → ElfData → ObjDumpTokenType × List Char → Parser (ElfData × ObjDumpTokenType)
  | 0, _, _ => .fail .outOfFuel
  | n + 1, e, (type, lex) =>
    if type ≠ .string then pure (e, type)
    else if strcasecmp "disassembly".toList lex then do
      let (lst, root, r) ← parseDisassemblyList n eType e.codeSectionLst e.srcFileRoot
        (vmaOffset + startAddr)
      tables eType vmaOffset startAddr n { e with codeSectionLst := lst, srcFileRoot := root } r
    else if strcasecmp "symbol".toList lex then do
      let (syms, r) ← parseSymbolTable n e.symLst e.codeSectionLst vmaOffset
      tables eType vmaOffset startAddr n { e with symLst := syms } r
    else err

def parseObjDump (fuel : ℕ) (e : ElfData) (vmaOffset startAddr endAddr : ADDRESS) :
    Parser ElfData := do
  let (_, et) ← parseElfName fuel
  match archType e.archSize et with
  | none => err
  | some (et, archSize) =>
    if isBlob et ∧ vmaOffset ≠ 0 then err
    else do
      onlyIf (isBlob et) (write (.copy 256 ((blobName startAddr).take 255)))
      let (sp, r) ← parseSectionList fuel (if isBlob et then [blobSection startAddr endAddr]
        else []) vmaOffset
      let (_, r) ← skipEols 256 fuel false r
      let (e', type) ← tables et vmaOffset startAddr fuel
        { e with archSize := archSize, codeSectionLst := sp } r
      if type = .eof then pure { e' with codeSectionLst := e'.codeSectionLst ++ e.codeSectionLst }
        else err

end Parser

end ObjDump

end TraceDecoder
