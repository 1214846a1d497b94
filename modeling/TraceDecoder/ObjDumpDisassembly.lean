import TraceDecoder.ObjDumpParser

/-!
# The parser for a disassembly

The part of the parser that reads the lines of a disassembly and records the instructions in their
section.
-/

namespace TraceDecoder

open CString Dialogue

namespace ObjDump

namespace Parser

inductive LineT
  | label
  | diss (text : List Char) (length : ℕ) (value : BitVec 32)
  | path (text : List Char) (value : BitVec 32)
  | func
  deriving DecidableEq, Repr

def endOfLine (type : ObjDumpTokenType) : Parser Unit :=
  if type = .eol ∨ type = .eof then pure () else err

def pathLine (room : ℕ) (text : List Char) : Parser (List Char × BitVec 64) := do
  let lex ← expect 256 .string
  match isStringADecNumber lex with
  | some n => pure (text, n)
  | none => do
    write (.copy room lex)
    let _ ← expect 256 .colon
    let n ← decNumber 256
    pure (lex, n)

def pathDiscriminator (type : ObjDumpTokenType) : Parser ObjDumpTokenType :=
  if type = .lp then do
    let _ ← expect 256 .string
    let _ ← expect 256 .string
    let _ ← expect 256 .rp
    let (type, _) ← getNextLex 256
    pure type
  else pure type

def lineDiscriminator (type : ObjDumpTokenType) : Parser ObjDumpTokenType :=
  if type = .lp then do
    keyword 256 "discriminator".toList
    let _ ← decNumber 256
    let _ ← expect 256 .rp
    let (type, _) ← getNextLex 256
    pure type
  else pure type

def parseFileOrLabelOrDisassembly (room : ℕ) : Parser LineT := do
  let (type, _) ← getNextLex 256
  match type with
  | .lt => do
    let _ ← expect room .string
    let _ ← expect 256 .gt
    let _ ← expect 256 .colon
    let (type, _) ← getNextLex 256
    endOfLine type
    pure .label
  | .lp => do
    let _ ← expect 256 .rp
    let _ ← expect 256 .colon
    let (type, _) ← getNextLex 256
    endOfLine type
    pure .func
  | .colon => do
    let text ← expect room .string
    match isStringAHexNumber text with
    | none => do
      let _ ← expect 256 .colon
      let (text, n) ← pathLine room text
      let (type, _) ← getNextLex 256
      let type ← pathDiscriminator type
      endOfLine type
      pure (.path text (n.setWidth 32))
    | some n =>
      if text.length = 4 ∨ text.length = 8 then do
        let (type, diss) ← getRestOfLine room
        endOfLine type
        pure (.diss diss (if text.length = 4 then 16 else 32) (n.setWidth 32))
      else err
  | _ => err

def parseFileLine : Parser (BitVec 32) := do
  let _ ← expect 256 .colon
  let n ← decNumber 256
  let (type, _) ← getNextLex 256
  let type ← lineDiscriminator type
  endOfLine type
  pure (n.setWidth 32)

/-- The section that is disassembled, the files, and the source line that is current. -/
structure Listing where
  sp : Section
  srcFileRoot : SrcFileRoot
  fName : Option (List Char) := none
  line : BitVec 32 := 0
  deriving DecidableEq, Repr

namespace Listing

variable (s : Listing)

def reset : Listing := { s with fName := none, line := 0 }

def setFile (file : List Char) (line : BitVec 32) : Listing :=
  { s with srcFileRoot := (s.srcFileRoot.addFile file).2, fName := some (s.srcFileRoot.addFile file).1, line := line }

/-- The index of an address; it is an `int`. -/
def index (addr : ADDRESS) : ℤ := (((addr - s.sp.startAddr) / 2).setWidth 32).toInt

def storeCode (addr : ADDRESS) (length : ℕ) (value : BitVec 32) (code : Cells (BitVec 16)) :
    Cells (BitVec 16) :=
  if length = 32 then
    (code.store (s.index addr) (value.setWidth 16)).store (s.index addr + 1)
      ((value >>> 16).setWidth 16)
  else code.store (s.index addr) (value.setWidth 16)

def disassembled (addr : ADDRESS) (length : ℕ) (value : BitVec 32) (text : List Char) : Listing :=
  { s with sp := { s.sp with
      code := s.sp.code.map (s.storeCode addr length value)
      diss := s.sp.diss.map fun cells => cells.store (s.index addr) (some text)
      fName := s.sp.fName.map fun cells => cells.store (s.index addr) s.fName
      line := s.sp.line.map fun cells => cells.store (s.index addr) s.line } }

end Listing

def useCell {α : Type} (cells : Option (Cells α)) (i : ℤ) : Parser Unit :=
  write (.index i (cells.getD []).length)

def hexUpper (n : BitVec 32) : List Char := (Nat.toDigits 16 n.toNat).map Char.toUpper

def numberLine (s : Listing) (addr : ADDRESS) : Parser Listing := do
  match ← parseFileOrLabelOrDisassembly 1024 with
  | .label => pure s.reset
  | .func => pure s.reset
  | .diss text length value => do
    useCell s.sp.code (s.index addr)
    onlyIf (length = 32) (useCell s.sp.code (s.index addr + 1))
    useCell s.sp.diss (s.index addr)
    useCell s.sp.fName (s.index addr)
    useCell s.sp.line (s.index addr)
    pure (s.disassembled addr length value text)
  | .path text value => do
    write (.join 1024 (hexUpper (addr.setWidth 32) ++ ':' :: text))
    pure (s.setFile (hexUpper (addr.setWidth 32) ++ ':' :: text) value)

def nameLine (s : Listing) (lex : List Char) : Parser Listing := do
  match ← parseFileOrLabelOrDisassembly 1024 with
  | .label => err
  | .diss _ _ _ => err
  | .path lex2 value => do
    write (.join 1024 (lex ++ [':']))
    write (.join 1024 (lex ++ ':' :: lex2))
    pure (s.setFile lex2 value)
  | .func => pure s.reset

/-- A line that begins with a string; `none` for a line of what is behind the disassembly. -/
def listingLine (s : Listing) (eol : Bool) (lex : List Char) : Parser (Option Listing) :=
  if lex = "...".toList then do
    let _ ← expect 1024 .eol
    pure (some s.reset)
  else
    match isStringAHexNumber lex with
    | some addr => some <$> numberLine s addr
    | none =>
      if eol ∧ (strcasecmp "disassembly".toList lex ∨ strcasecmp "symbol".toList lex) then pure none
      else if peek lex = '/' ∨ peek lex = '\\' then do
        let line ← parseFileLine
        pure (some (s.setFile lex line))
      else some <$> nameLine s lex

def scoot : ℕ → ObjDumpTokenType → Parser Unit
  | 0, _ => .fail .outOfFuel
  | n + 1, type =>
    if type = .eol then pure ()
    else do
      let (type, _) ← getNextLex 1024
      scoot n type

/-- A line with the file name `<unknown>`. -/
def unknownFile (fuel : ℕ) : Parser Unit := do
  let lex ← expect 1024 .string
  if lex = "unknown".toList then do
    let _ ← expect 1024 .gt
    let (type, _) ← getNextLex 1024
    if type = .colon then do
      write .scoot
      scoot fuel type
    else if type = .eol then scoot fuel type
    else err
  else err

def listing : ℕ → Listing → ObjDumpTokenType × List Char → Parser
    (Listing × ObjDumpTokenType × List Char)
  | 0, _, _ => .fail .outOfFuel
  | n + 1, s, r => do
    let (eol, type, lex) ← skipEols 1024 n false r
    match type with
    | .lt => do
      unknownFile n
      listing n s (.eol, [])
    | .string => do
      match ← listingLine s eol lex with
      | some s => do
        let r ← getNextLex 1024
        listing n s r
      | none => do
        write (.copy 256 lex)
        pure (s, type, lex)
    | _ => do
      write (.copy 256 lex)
      pure (s, type, lex)

def blobName (startAddr : ADDRESS) : List Char :=
  ".text.0x".toList ++ (Nat.toDigits 16 startAddr.toNat).leftpad 8 '0'

/-- The name of the section in the list, where `lex` is the name in the text. -/
def sectionName (eType : ElfType) (startAddr : ADDRESS) (lex : List Char) : Parser (List Char) :=
  match eType with
  | .little32 | .little64 => pure lex
  | .binary32 | .binary64 => do
    write (.copy 1024 ((blobName startAddr).take 1023))
    pure (blobName startAddr)
  | .unknown => err

def parseDisassemblyList (fuel : ℕ) (eType : ElfType) (codeSectionLst : List Section)
    (srcFileRoot : SrcFileRoot)
    (startAddr : ADDRESS) : Parser (List Section × SrcFileRoot × ObjDumpTokenType × List Char) := do
  keyword 1024 "of".toList
  keyword 1024 "section".toList
  let lex ← expect 1024 .string
  let lex ← sectionName eType startAddr lex
  match Section.getSectionByName lex codeSectionLst with
  | none => err
  | some sp => do
    let _ ← expect 1024 .colon
    let _ ← expect 1024 .eol
    let (s, r) ← listing fuel { sp := sp.allocate, srcFileRoot := srcFileRoot } (.eol, [])
    pure (s.sp.update codeSectionLst, s.srcFileRoot, r)

end Parser

end ObjDump

end TraceDecoder
