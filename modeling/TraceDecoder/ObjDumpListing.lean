import TraceDecoder.ObjDumpDisassembly

/-!
# Listings

The disassembly of a section as objdump writes it, line by line, and what is to be recorded of it:
the half-words, the texts of the instructions, and for each the source line in front of it.
-/

namespace TraceDecoder

open CString

namespace ObjDump

/-! ### The lines -/

def IsBlank (c : Char) : Prop := c = ' ' ∨ c = '\t'

instance : DecidablePred IsBlank := fun c => inferInstanceAs (Decidable (c = ' ' ∨ c = '\t'))

def IsWhite (c : Char) : Prop := c = ' ' ∨ c = '\r' ∨ c = '\t'

theorem IsBlank.white {c : Char} (h : IsBlank c) : IsWhite c := h.imp_right .inr

/-- A path with a root, or one behind the letter of a drive, with the number of the line. -/
structure SourceLine where
  drive : Option Char
  path : List Char
  line : Numeral 10
  discriminator : Option (Numeral 10)
  letter : ∀ d ∈ drive, d.isAlpha = true
  rooted : drive = none → path.head? = some '/'

structure InstLine where
  indent : List Char
  address : Numeral 16
  gap : List Char
  encoding : Numeral 16
  tab : List Char
  text : List Char
  blanks : ∀ c ∈ indent ++ gap ++ tab, IsBlank c
  size : encoding.digits.length = 4 ∨ encoding.digits.length = 8
  apart : text ≠ [] → tab ≠ []
  text_start : ∀ c ∈ text.head?, ¬ IsBlank c
  text_chars : ∀ c ∈ text, c ≠ '\n' ∧ c ≠ '\r' ∧ c ≠ '\x00'

inductive ListingLine
  | blank
  | label (address : Numeral 16) (name : List Char)
  | func (name : List Char)
  | dots (indent : List Char)
  | source (l : SourceLine)
  | inst (l : InstLine)

def driveText (drive : Option Char) : List Char := drive.toList.flatMap fun d => [d, ':']

def discriminatorText (n : Option (Numeral 10)) : List Char :=
  n.toList.flatMap fun n => " (discriminator ".toList ++ (n.digits ++ [')'])

def ListingLine.textThen (rest : List Char) : ListingLine → List Char
  | blank => '\n' :: rest
  | label address name => address.digits ++ ' ' :: '<' :: (name ++ '>' :: ':' :: '\n' :: rest)
  | func name => name ++ '(' :: ')' :: ':' :: '\n' :: rest
  | dots indent => indent ++ ("...".toList ++ '\n' :: rest)
  | source l =>
    driveText l.drive ++ (l.path ++ ':' ::
      (l.line.digits ++ (discriminatorText l.discriminator ++ '\n' :: rest)))
  | inst l =>
    l.indent ++ (l.address.digits ++ ':' ::
      (l.gap ++ (l.encoding.digits ++ (l.tab ++ (l.text ++ '\n' :: rest)))))

def listingText (rest : List Char) : List ListingLine → List Char
  | [] => rest
  | l :: lines => l.textThen (listingText rest lines)

/-- What is behind a listing: the end of the file, or a blank line and another table. -/
inductive Tail
  | eof
  | table (word rest : List Char) (plain : ∀ c ∈ word, endsString c = false ∧ c ≠ '\x00')
    (ends : ∀ c ∈ rest.head?, endsString c = true) (isTable : strcasecmp "disassembly".toList word =
      true ∨ strcasecmp "symbol".toList word = true)

namespace Tail

def text : Tail → List Char
  | eof => []
  | table word rest _ _ _ => '\n' :: (word ++ rest)

def token : Tail → ObjDumpTokenType × List Char
  | eof => (.eof, [])
  | table word _ _ _ _ => (.string, word)

def rest : Tail → List Char
  | eof => []
  | table _ rest _ _ _ => rest

end Tail

/-! ### What is to be recorded -/

def SourceLine.file (l : SourceLine) : List Char := driveText l.drive ++ l.path

/-- The instructions, each with the last source line behind the last label, function or dots. -/
def instructions : Option SourceLine → List ListingLine → List (InstLine × Option SourceLine)
  | _, [] => []
  | current, .blank :: lines => instructions current lines
  | _, .label _ _ :: lines => instructions none lines
  | _, .func _ :: lines => instructions none lines
  | _, .dots _ :: lines => instructions none lines
  | _, .source l :: lines => instructions (some l) lines
  | current, .inst l :: lines => (l, current) :: instructions current lines

namespace InstLine

variable (l : InstLine) (startAddr : ADDRESS)

def addr : ADDRESS := BitVec.ofNat 64 l.address.value

def place : ℕ := (l.addr - startAddr).toNat / 2

def value : BitVec 32 := BitVec.ofNat 32 l.encoding.value

def halfWords : List (ℕ × BitVec 16) :=
  if l.encoding.digits.length = 4 then [(l.place startAddr, l.value.setWidth 16)]
  else [(l.place startAddr, l.value.setWidth 16),
    (l.place startAddr + 1, (l.value >>> 16).setWidth 16)]

def Inside (sp : Section) : Prop :=
  l.address.value < 2 ^ 64 ∧ (l.addr - sp.startAddr).toNat < sp.size.toNat

end InstLine

def lastAt {α : Type} (entries : List (ℕ × α)) (i : ℕ) : Option α := entries.reverse.lookup i

/-- Each cell holds the last entry for its place; the other cells are as they were. -/
def Entered {α : Type} (before : Cells α) (entries : List (ℕ × α)) (cells : Cells α) : Prop :=
  ∀ i, cells[i]? = match lastAt entries i with
    | some a => some (some a)
    | none => before[i]?

def Cells.toNat (cells : Cells (BitVec 32)) : Cells ℕ := cells.map fun cell => cell.map BitVec.toNat

/-- The listing as it is kept in the arrays of its section, which are new. -/
structure Recorded (sp : Section) (lines : List ListingLine) (sp' : Section) : Prop where
  code : ∃ cells, sp'.code = some cells ∧ Entered (sp.allocate.code.getD [])
    ((instructions none lines).flatMap fun x => x.1.halfWords sp.startAddr) cells
  diss : ∃ cells, sp'.diss = some cells ∧ Entered (sp.allocate.diss.getD [])
    ((instructions none lines).map fun x => (x.1.place sp.startAddr, some x.1.text)) cells
  fName : ∃ cells, sp'.fName = some cells ∧ Entered (sp.allocate.fName.getD [])
    ((instructions none lines).map fun x => (x.1.place sp.startAddr, x.2.map SourceLine.file)) cells
  line : ∃ cells, sp'.line = some cells ∧ Entered (Cells.toNat (sp.allocate.line.getD []))
    ((instructions none lines).map fun x => (x.1.place sp.startAddr,
      (x.2.map fun l => l.line.value).getD 0)) (Cells.toNat cells)

/-! ### Listings that can be read -/

/-- A name without a character at which the tokeniser ends a string. -/
structure Name (w : List Char) : Prop where
  ne : w ≠ []
  plain : ∀ c ∈ w, endsString c = false ∧ c ≠ '\x00'

structure Word (room : ℕ) (w : List Char) : Prop extends Name w where
  short : w.length < room

/-- A function of this name is not taken for a path, for dots or, behind the end
of a line, for a table. -/
structure FuncName (eol : Bool) (name : List Char) : Prop extends Name name where
  not_dots : name ≠ "...".toList
  not_path : peek name ≠ '/' ∧ peek name ≠ '\\'
  not_table : eol = true → strcasecmp "disassembly".toList name = false ∧
    strcasecmp "symbol".toList name = false

/-- The path can be read, and behind a drive it is not a number in the hexadecimal system. -/
structure SourceLine.Legible (l : SourceLine) : Prop where
  name : Name l.path
  not_number : l.drive ≠ none → ∃ c ∈ l.path, ¬ IsDigit 16 c

/-- `eol` says whether the end of a line is read in front of the next token, as for a blank line and
a text of an instruction. -/
def Legible : Bool → List ListingLine → Prop
  | _, [] => True
  | _, .blank :: lines => Legible true lines
  | _, .label _ name :: lines => Name name ∧ Legible false lines
  | eol, .func name :: lines => FuncName eol name ∧ Legible false lines
  | _, .dots indent :: lines => (∀ c ∈ indent, IsBlank c) ∧ Legible false lines
  | _, .source l :: lines => l.Legible ∧ Legible false lines
  | _, .inst l :: lines => Legible (l.text ≠ []) lines

def SourceLine.NumbersFit (l : SourceLine) : Prop :=
  l.line.digits.length < 256 ∧ ∀ n ∈ l.discriminator, n.digits.length < 256

/-- The path and what stands in front of it fit one array, the numbers fit theirs. -/
structure SourceLine.Fits (l : SourceLine) : Prop where
  path : (driveText l.drive ++ l.path).length < 1024
  numbers : l.NumbersFit

structure InstLine.Fits (l : InstLine) : Prop where
  number : l.address.digits.length < 1024
  text : l.text.length < 1024

/-- The texts of the line are not too long for the arrays they are read into. -/
def ListingLine.Fits : ListingLine → Prop
  | blank | dots _ => True
  | label address name => address.digits.length < 1024 ∧ name.length < 1024
  | func name => name.length < 1024
  | source l => l.Fits
  | inst l => l.Fits

def Readable (eol : Bool) (lines : List ListingLine) : Prop :=
  Legible eol lines ∧ ∀ l ∈ lines, l.Fits

end ObjDump

end TraceDecoder
