import TraceDecoder.Lib.CStrings
import TraceDecoder.Lib.Dialogue
import TraceDecoder.MappingFile
import TraceDecoder.ObjDumpText
import TraceDecoder.Sections

/-!
# The parser for the output of objdump

The parse functions of `ObjDump`, as dialogues with the tokeniser. A character array is the string
it holds; the size of the array that receives a text is an argument, and a note is taken of each
text that is written to an array.
-/

namespace TraceDecoder

open CString Dialogue

namespace ObjDump

/-- `outOfFuel` stands for a loop that has not ended yet. -/
inductive Fault
  | err | outOfFuel
  deriving DecidableEq, Repr

abbrev Answer : Call → Type
  | .getNextLex | .getRestOfLine => ObjDumpTokenType × List Char
  | .isWSLookahead => Bool
  | .parseFixedField => DQErr × BitVec 32

def answer : (c : Call) → ObjDump → Answer c × ObjDump
  | .getNextLex, s => ((s.getNextLex.1, s.getNextLex.2.1), s.getNextLex.2.2)
  | .getRestOfLine, s => ((s.getRestOfLine.1, s.getRestOfLine.2.1), s.getRestOfLine.2.2)
  | .isWSLookahead, s => s.isWSLookahead
  | .parseFixedField, s => s.parseFixedField

def Text.answer : (c : Call) → List Char → Answer c × List Char
  | .getNextLex, t => (((nextLex t).1, (nextLex t).2.1), (nextLex t).2.2)
  | .getRestOfLine, t => (((restOfLine t).1, (restOfLine t).2.1), (restOfLine t).2.2)
  | .isWSLookahead, t => (wsLookahead t, t)
  | .parseFixedField, t => fixedField t

/-- A text read by the tokeniser, copied or put together in an array of `room` characters; an array
of `count` cells used at an index; and the colon behind the file name `<unknown>`, from where a line
is skipped. -/
inductive Note
  | lex (room : ℕ) (text : List Char)
  | copy (room : ℕ) (text : List Char)
  | join (room : ℕ) (text : List Char)
  | index (i : ℤ) (count : ℕ)
  | scoot
  deriving DecidableEq, Repr

def Note.Fits : Note → Prop
  | lex room text | copy room text | join room text => text.length < room
  | index _ _ | scoot => True

instance : DecidablePred Note.Fits := fun w => by cases w <;> unfold Note.Fits <;> infer_instance

abbrev Parser := Dialogue Answer Note Fault

def cString (text : List Char) : List Char := text.takeWhile fun c => c ≠ '\x00'

def strcasecmp (s t : List Char) : Bool := s.map Char.toLower == t.map Char.toLower

def isStringAHexNumber (s : List Char) : Option (BitVec 64) :=
  if ∀ c ∈ s, IsDigit 16 c then some (s.foldl (fun val c => val * 16 + BitVec.ofNat 64 (digitVal c))
    0) else none

def isStringADecNumber (s : List Char) : Option (BitVec 64) :=
  if ∀ c ∈ s, IsDigit 10 c then some (s.foldl (fun val c => val * 10 + BitVec.ofNat 64 (digitVal c))
    0) else none

namespace Parser

def err {α : Type} : Parser α := .fail .err

def write (w : Note) : Parser Unit := .note w (.done ())

/-! ### Tokens -/

def getNextLex (room : ℕ) : Parser (ObjDumpTokenType × List Char) :=
  .call .getNextLex fun r => .note (.lex room r.2) (.done (r.1, cString r.2))

def getRestOfLine (room : ℕ) : Parser (ObjDumpTokenType × List Char) :=
  .call .getRestOfLine fun r => .note (.lex room r.2) (.done (r.1, cString r.2))

def isWSLookahead : Parser Bool := .call .isWSLookahead .done

def parseFixedField : Parser (BitVec 32) :=
  .call .parseFixedField fun r => if r.1 = .ok then .done r.2 else .fail .err

def expect (room : ℕ) (type : ObjDumpTokenType) : Parser (List Char) := do
  let r ← getNextLex room
  if r.1 = type then pure r.2 else err

def keyword (room : ℕ) (word : List Char) : Parser Unit := do
  let lex ← expect room .string
  if strcasecmp word lex then pure () else err

def hexNumber (room : ℕ) : Parser (BitVec 64) := do
  let lex ← expect room .string
  match isStringAHexNumber lex with
  | some n => pure n
  | none => err

def decNumber (room : ℕ) : Parser (BitVec 64) := do
  let lex ← expect room .string
  match isStringADecNumber lex with
  | some n => pure n
  | none => err

/-- The loops that pass over the ends of lines, with the token in hand;
whether there has been one. -/
def skipEols (room : ℕ) : ℕ → Bool → ObjDumpTokenType × List Char → Parser
    (Bool × ObjDumpTokenType × List Char)
  | 0, _, _ => .fail .outOfFuel
  | n + 1, eol, r =>
    if r.1 = .eol then do
      let r ← getNextLex room
      skipEols room n true r
    else pure (eol, r)

/-! ### The file name -/

def scanName (room : ℕ) : ℕ → Parser (List Char)
  | 0 => .fail .outOfFuel
  | n + 1 => do
    let r ← getNextLex room
    match r.1 with
    | .eol => scanName room n
    | .string => pure r.2
    | _ => err

def elfFormat (lex : List Char) : Option ElfType :=
  if strcasecmp "elf64-littleriscv".toList lex then some .little64
  else if strcasecmp "elf32-littleriscv".toList lex then some .little32
  else if strcasecmp "binary".toList lex then some .binary64
  else none

def drivePath (fuel : ℕ) (elfName : List Char) : Parser (List Char) := do
  let lex ← scanName 256 fuel
  write (.join 256 (elfName ++ [':']))
  write (.join 256 (elfName ++ ':' :: lex))
  let _ ← expect 256 .colon
  pure (elfName ++ ':' :: lex)

def parseElfName (fuel : ℕ) : Parser (List Char × ElfType) := do
  let elfName ← scanName 256 fuel
  let _ ← expect 256 .colon
  let ws ← isWSLookahead
  let elfName ← bif ws then pure elfName else drivePath fuel elfName
  keyword 256 "file".toList
  keyword 256 "format".toList
  let lex ← expect 256 .string
  match elfFormat lex with
  | some et => pure (elfName, et)
  | none => err

/-! ### The sections -/

/-- The alignments that are known; from 2**9 on they are recorded as 2**8. -/
def alignments : List (List Char × BitVec 32) :=
  (List.range 17).map fun i => ("2**".toList ++ Nat.toDigits 10 i, 1 <<< min i 8)

def sectFlag (lex : List Char) : Option (BitVec 32) :=
  if strcasecmp "CONTENTS".toList lex then some Section.sect_CONTENTS
  else if strcasecmp "ALLOC".toList lex then some Section.sect_ALLOC
  else if strcasecmp "LOAD".toList lex then some Section.sect_LOAD
  else if strcasecmp "READONLY".toList lex then some Section.sect_READONLY
  else if strcasecmp "DATA".toList lex then some Section.sect_DATA
  else if strcasecmp "CODE".toList lex then some Section.sect_CODE
  else if strcasecmp "THREAD_LOCAL".toList lex then some Section.sect_THREADLOCAL
  else if strcasecmp "DEBUGGING".toList lex then some Section.sect_DEBUGGING
  else if strcasecmp "OCTETS".toList lex then some Section.sect_OCTETS
  else none

def sectionFlags : ℕ → BitVec 32 → Parser (BitVec 32 × ObjDumpTokenType × List Char)
  | 0, _ => .fail .outOfFuel
  | n + 1, flags => do
    let lex ← expect 256 .string
    match sectFlag lex with
    | none => err
    | some flag => do
      let r ← getNextLex 256
      match r.1 with
      | .comma => sectionFlags n (flags ||| flag)
      | .eol => pure (flags ||| flag, r)
      | _ => err

def parseSection (fuel : ℕ) (vmaOffset : ADDRESS) :
    Parser (Option Section × ObjDumpTokenType × List Char) := do
  let r ← getNextLex 256
  if r.1 ≠ .string ∨ isStringADecNumber r.2 = none then do
    write (.copy 256 r.2)
    pure (none, r)
  else do
    let name ← expect 256 .string
    let size ← hexNumber 256
    let vma ← hexNumber 256
    let _ ← hexNumber 256
    let offset ← hexNumber 256
    let lex ← expect 256 .string
    match alignments.lookup lex with
    | none => err
    | some align => do
      let _ ← expect 256 .eol
      let (flags, r) ← sectionFlags fuel 0
      if flags &&& Section.sect_CODE ≠ 0 ∨ name = ".comment".toList then do
        write (.copy 256 name)
        write (.copy 256 r.2)
        pure (some {
          name := name
          startAddr := vma
          endAddr := vma + (size.setWidth 32).setWidth 64 - 1
          vmaOffset := vmaOffset
          flags := flags
          size := size.setWidth 32
          offset := offset.setWidth 32
          align := align }, r)
      else do
        write (.copy 256 r.2)
        pure (none, r)

def sections (vmaOffset : ADDRESS) :
    ℕ → List Section → Parser (List Section × ObjDumpTokenType × List Char)
  | 0, _ => .fail .outOfFuel
  | n + 1, codeSectionLst => do
    let (newSection, r) ← parseSection n vmaOffset
    if r.1 = .eol then sections vmaOffset n (newSection.toList ++ codeSectionLst)
    else pure (newSection.toList ++ codeSectionLst, r)

def keywords (room : ℕ) : List (List Char) → Parser Unit
  | [] => pure ()
  | word :: words => do
    keyword room word
    keywords room words

def expected : List (List Char) :=
  ["Idx".toList, "Name".toList, "Size".toList, "VMA".toList, "LMA".toList, "File".toList,
    "off".toList, "Algn".toList]

def parseSectionList (fuel : ℕ) (codeSectionLst : List Section) (vmaOffset : ADDRESS) :
    Parser (List Section × ObjDumpTokenType × List Char) := do
  let r ← getNextLex 256
  let (_, r) ← skipEols 256 fuel false r
  if r.1 ≠ .string ∨ strcasecmp "Sections".toList r.2 = false then do
    write (.copy 256 r.2)
    pure (codeSectionLst, r)
  else do
    let _ ← expect 256 .colon
    let _ ← expect 256 .eol
    keywords 256 expected
    let _ ← expect 256 .eol
    let (codeSectionLst, r) ← sections vmaOffset fuel codeSectionLst
    write (.copy 256 r.2)
    pure (codeSectionLst, r)

end Parser

end ObjDump

end TraceDecoder
