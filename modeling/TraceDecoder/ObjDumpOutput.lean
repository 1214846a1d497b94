import TraceDecoder.ObjDumpFaithful

/-!
# The output of objdump

What objdump prints for an elf file that has code: the name of the file, the sections, the symbols
if it is asked for them, and for each section with code its disassembly. The white space between
words and the empty lines are free.
-/

namespace TraceDecoder

open CString

namespace ObjDump

/-! ### Words and lines -/

structure Gap where
  chars : List Char
  ne : chars ≠ []
  blank : ∀ c ∈ chars, IsBlank c

def wordsText (rest : List Char) : List (Gap × List Char) → List Char
  | [] => rest
  | (gap, w) :: words => gap.chars ++ (w ++ wordsText rest words)

def emptyLines (n : ℕ) (rest : List Char) : List Char := List.replicate n '\n' ++ rest

/-! ### The name of the file -/

structure FileLine where
  before : ℕ
  drive : Option Char
  name : List Char
  wide : Bool
  gaps : Fin 3 → Gap
  letter : ∀ d ∈ drive, d.isAlpha = true
  plain : Name name

def formatWord (wide : Bool) : List Char :=
  bif wide then "elf64-littleriscv".toList else "elf32-littleriscv".toList

def FileLine.textThen (rest : List Char) (l : FileLine) : List Char :=
  emptyLines l.before (driveText l.drive ++ (l.name ++ ':' :: ((l.gaps 0).chars ++ ("file".toList ++
    ((l.gaps 1).chars ++ ("format".toList ++
      ((l.gaps 2).chars ++ (formatWord l.wide ++ '\n' :: rest))))))))

/-- The line behind the colon. -/
def FileLine.behindColon (rest : List Char) (l : FileLine) : List Char :=
  (l.gaps 0).chars ++ ("file".toList ++ ((l.gaps 1).chars ++ ("format".toList ++
    ((l.gaps 2).chars ++ (formatWord l.wide ++ '\n' :: rest)))))

def FileLine.Fits (l : FileLine) : Prop := (driveText l.drive ++ l.name).length < 256

/-! ### The sections -/

inductive SectFlag
  | contents | alloc | load | readonly | data | code | threadLocal | debugging | octets
  deriving DecidableEq, Repr

namespace SectFlag

def word : SectFlag → List Char
  | contents => "CONTENTS".toList
  | alloc => "ALLOC".toList
  | load => "LOAD".toList
  | readonly => "READONLY".toList
  | data => "DATA".toList
  | code => "CODE".toList
  | threadLocal => "THREAD_LOCAL".toList
  | debugging => "DEBUGGING".toList
  | octets => "OCTETS".toList

def moreText (rest : List Char) : List (List Char × SectFlag) → List Char
  | [] => rest
  | (blanks, flag) :: flags => ',' :: (blanks ++ (flag.word ++ moreText rest flags))

end SectFlag

def alignWord (align : Fin 17) : List Char := "2**".toList ++ Nat.toDigits 10 align

structure SectionEntry where
  indent : List Char
  index : Numeral 10
  name : List Char
  size : Numeral 16
  vma : Numeral 16
  lma : Numeral 16
  offset : Numeral 16
  align : Fin 17
  gaps : Fin 6 → Gap
  flagIndent : List Char
  flag : SectFlag
  flags : List (List Char × SectFlag)
  plain : Name name
  blanks : (∀ c ∈ indent ++ flagIndent, IsBlank c) ∧ ∀ x ∈ flags, ∀ c ∈ x.1, IsBlank c

namespace SectionEntry

variable (s : SectionEntry)

def textThen (rest : List Char) : List Char :=
  s.indent ++ (s.index.digits ++
    wordsText ('\n' :: (s.flagIndent ++ (s.flag.word ++ SectFlag.moreText ('\n' :: rest) s.flags)))
      [(s.gaps 0, s.name), (s.gaps 1, s.size.digits), (s.gaps 2, s.vma.digits),
      (s.gaps 3, s.lma.digits), (s.gaps 4, s.offset.digits), (s.gaps 5, alignWord s.align)])

/-- The sections that the decoder keeps are those with code and the comment. -/
def Kept : Prop := SectFlag.code ∈ s.flag :: s.flags.map Prod.snd ∨ s.name = ".comment".toList

structure Fits : Prop where
  index : s.index.digits.length < 256
  name : s.name.length < 256
  size : s.size.digits.length < 256
  vma : s.vma.digits.length < 256
  lma : s.lma.digits.length < 256
  offset : s.offset.digits.length < 256

end SectionEntry

def sectionsText (rest : List Char) : List SectionEntry → List Char
  | [] => rest
  | s :: sections => s.textThen (sectionsText rest sections)

def columnWords : List (List Char) :=
  ["Name".toList, "Size".toList, "VMA".toList, "LMA".toList, "File".toList, "off".toList,
    "Algn".toList]

/-! ### The symbols -/

def flagColumns : List (List Char) :=
  [" lgu!".toList, " w".toList, " C".toList, " W".toList, " Ii".toList, " dD".toList, " FfO".toList]

/-- There may be no name, one with its visibility in front, or a path behind a drive. -/
inductive SymbolName
  | none (blanks : List Char) (blank : ∀ c ∈ blanks, IsBlank c)
  | one (gap : Gap) (name : List Char) (plain : Name name)
  | two (gap : Gap) (visibility : List Char) (gap' : Gap) (name : List Char)
    (plain : Name visibility ∧ Name name)
  | path (gap : Gap) (drive file : List Char) (plain : Name drive ∧ Name file)

namespace SymbolName

def textThen (rest : List Char) : SymbolName → List Char
  | none blanks _ => blanks ++ '\n' :: rest
  | one gap name _ => gap.chars ++ (name ++ '\n' :: rest)
  | two gap visibility gap' name _ =>
    gap.chars ++ (visibility ++ (gap'.chars ++ (name ++ '\n' :: rest)))
  | path gap drive file _ => gap.chars ++ (drive ++ ':' :: (file ++ '\n' :: rest))

def Fits : SymbolName → Prop
  | none _ _ => True
  | one _ name _ => name.length < 256
  | two _ visibility _ name _ => visibility.length < 256 ∧ name.length < 256
  | path _ drive file _ => (drive ++ ':' :: file).length < 256

end SymbolName

structure SymbolEntry where
  before : ℕ
  address : Numeral 16
  flags : List Char
  gap : Gap
  sectionName : List Char
  sizeGap : Gap
  size : Numeral 16
  name : SymbolName
  known : List.Forall₂ (fun c column => c ∈ column) flags flagColumns
  plain : Name sectionName

namespace SymbolEntry

variable (s : SymbolEntry)

def textThen (rest : List Char) : List Char :=
  emptyLines s.before (s.address.digits ++ ' ' ::
    (s.flags ++ (s.gap.chars ++
      (s.sectionName ++ (s.sizeGap.chars ++ (s.size.digits ++ s.name.textThen rest))))))

structure Fits : Prop where
  address : s.address.digits.length < 256
  sectionName : s.sectionName.length < 256
  size : s.size.digits.length < 256
  name : s.name.Fits

end SymbolEntry

inductive SymbolTable
  | noSymbols (gap : Gap) (after : ℕ)
  | entries (symbols : List SymbolEntry) (after : ℕ)

namespace SymbolTable

def entriesText (rest : List Char) : List SymbolEntry → List Char
  | [] => rest
  | s :: symbols => s.textThen (entriesText rest symbols)

def textThen (rest : List Char) : SymbolTable → List Char
  | noSymbols gap after =>
    "no".toList ++ (gap.chars ++ ("symbols".toList ++ '\n' :: emptyLines after rest))
  | entries symbols after => entriesText (emptyLines after rest) symbols

def Fits : SymbolTable → Prop
  | noSymbols _ _ => True
  | entries symbols _ => ∀ s ∈ symbols, s.Fits

end SymbolTable

/-! ### All of it -/

structure Disassembly where
  name : List Char
  lines : List ListingLine
  plain : Name name
  legible : Legible true lines

namespace Disassembly

def textThen (rest : List Char) (d : Disassembly) : List Char :=
  disassemblyText d.name (listingText rest d.lines)

structure Fits (d : Disassembly) : Prop where
  name : d.name.length < 1024
  lines : ∀ l ∈ d.lines, l.Fits

def allText (rest : List Char) : Disassembly → List Disassembly → List Char
  | d, [] => d.textThen rest
  | d, d' :: more => d.textThen ('\n' :: ("Disassembly".toList ++ allText rest d' more))

end Disassembly

structure Output where
  file : FileLine
  after : ℕ
  columns : List (Gap × List Char)
  sections : List SectionEntry
  sectionsAfter : ℕ
  symbols : Option (Gap × SymbolTable)
  first : Disassembly
  more : List Disassembly
  columns_words : columns.map Prod.snd = columnWords
  listed : ∀ d ∈ first :: more, ∃ s ∈ sections, s.Kept ∧ s.name = d.name

namespace Output

def symbolsText (rest : List Char) : Option (Gap × SymbolTable) → List Char
  | none => rest
  | some (gap, table) =>
    "SYMBOL".toList ++ (gap.chars ++ ("TABLE".toList ++ ':' :: '\n' :: table.textThen rest))

variable (o : Output)

def textThen (rest : List Char) : List Char :=
  o.file.textThen (emptyLines o.after ("Sections".toList ++ ':' :: '\n' ::
    ("Idx".toList ++ wordsText
      ('\n' :: sectionsText (emptyLines o.sectionsAfter
        (symbolsText ("Disassembly".toList ++ Disassembly.allText rest o.first o.more) o.symbols))
        o.sections) o.columns)))

def text : List Char := o.textThen []

/-- The texts of the output are shorter than the arrays they are read into. -/
structure Fits : Prop where
  file : o.file.Fits
  sections : ∀ s ∈ o.sections, s.Fits
  symbols : ∀ x ∈ o.symbols, x.2.Fits
  listings : ∀ d ∈ o.first :: o.more, d.Fits

end Output

end ObjDump

end TraceDecoder
