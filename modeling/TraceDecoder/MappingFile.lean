import TraceDecoder.Basic
import TraceDecoder.Lib.CStrings
import TraceDecoder.Lib.Program

/-!
# Mapping files

`Trace::parseMappingFile`, which reads the executable sections of a process from a file in the
format of `/proc/<pid>/maps`. The pointer `start` is the rest of the text from there on.
-/

namespace TraceDecoder

open CString

inductive ElfType
  | unknown | little64 | little32 | binary32 | binary64
  deriving DecidableEq, Repr

structure AddressMap where
  efName : List Char
  eType : ElfType
  isBlob : Bool
  startAddr : ADDRESS
  endAddr : ADDRESS
  deriving DecidableEq, Repr

/-- The members of `Trace` that are looked at. -/
structure MapSettings where
  archSize : ℕ
  vdsoName : Option (List Char)

structure MapParser where
  start : List Char
  codeSections : ℕ
  am : List AddressMap

/-- The error return, or that `pathName` was left. -/
inductive MapStop
  | err | overrun
  deriving DecidableEq, Repr

abbrev MapM := EStateM MapStop MapParser

/-- The size of `pathName`, its terminating null included. -/
def pathNameSize : ℕ := 1024

def IsNewline (c : Char) : Prop := c = '\n' ∨ c = '\r'

instance : DecidablePred IsNewline := fun c => inferInstanceAs (Decidable (c = '\n' ∨ c = '\r'))

def IsVdso (pathName : List Char) : Prop :=
  pathName.map Char.toLower = ['[', 'v', 'd', 's', 'o', ']']

instance : DecidablePred IsVdso := fun n => inferInstanceAs (Decidable (n.map Char.toLower = _))

namespace MapM

/-- `strtoll` with its check that there was a number. -/
def number (base : ℕ) : MapM ℤ := fun s =>
  let (value, endPtr) := strtoll base s.start
  if endPtr.length = s.start.length then .error .err s else .ok value { s with start := endPtr }

def expect (p : Char → Prop) [DecidablePred p] : MapM Unit := fun s =>
  if p (peek s.start) then .ok () { s with start := s.start.tail } else .error .err s

def skipWhile (p : Char → Prop) [DecidablePred p] : MapM Unit :=
  modify fun s => { s with start := s.start.dropWhile (p ·) }

def skipTo (p : Char → Prop) [DecidablePred p] : MapM Unit := skipWhile fun c => ¬ p c ∧ c ≠ '\x00'

def requireMore : MapM Unit := fun s => if peek s.start = '\x00' then .error .err s else .ok () s

/-- The characters copied to `pathName`. The loop ends at the digit 0; it has no test
for the end of the text. -/
def pathNameAt (start : List Char) : List Char :=
  (if peek start = '/' then ['.'] else []) ++ start.takeWhile fun c => ¬ IsNewline c ∧ c ≠ '0'

/-- The entry for a path name; `none` for an architecture size that is not known. -/
def addressMap (t : MapSettings) (pathName : List Char) (startAddr endAddr : ADDRESS) :
    Option AddressMap :=
  if IsVdso pathName then
    let efName := t.vdsoName.getD ['v', 'd', 's', 'o']
    if t.archSize = 32 then some ⟨efName, .binary32, true, startAddr, endAddr⟩
    else if t.archSize = 64 then some ⟨efName, .binary64, true, startAddr, endAddr⟩
    else none
  else if t.archSize = 0 ∨ t.archSize = 32 then some ⟨pathName, .little32, false, startAddr,
    endAddr⟩
  else if t.archSize = 64 then some ⟨pathName, .little64, false, startAddr, endAddr⟩
  else none

def Overruns (t : MapSettings) (pathName : List Char) : Prop :=
  pathNameSize ≤ pathName.length ∨ IsVdso pathName ∧ ∃ vdsoName ∈ t.vdsoName, pathNameSize ≤
    vdsoName.length

instance (t : MapSettings) (pathName : List Char) : Decidable (Overruns t pathName) :=
  inferInstanceAs (Decidable (_ ∨ _ ∧ _))

def entryOf (t : MapSettings) (pathName : List Char) (startAddr endAddr : ADDRESS) :
    Except MapStop AddressMap :=
  if Overruns t pathName then .error .overrun
  else
    match addressMap t pathName startAddr endAddr with
    | none => .error .err
    | some e => .ok e

def addEntry (t : MapSettings) (startAddr endAddr : ADDRESS) : MapM Unit := fun s =>
  match entryOf t (pathNameAt s.start) startAddr endAddr with
  | .error stop => .error stop s
  | .ok e => .ok () { s with am := s.am ++ [e] }

/-- The rest of the line of an executable section, from the `x` on. -/
def codeSection (t : MapSettings) (startAddr endAddr : ADDRESS) : MapM Unit := do
  modify fun s => { s with codeSections := s.codeSections + 1, start := s.start.tail }
  skipTo (· = ' ')
  skipWhile (· = ' ')
  requireMore
  let _offset ← number 16
  skipWhile (· = ' ')
  requireMore
  skipTo (· = ' ')
  requireMore
  modify fun s => { s with start := s.start.tail }
  let _inode ← number 10
  skipWhile (· = ' ')
  requireMore
  addEntry t startAddr endAddr
  -- past the first character of the path name, or of what follows when there is none
  modify fun s => if peek s.start ≠ '\x00' then { s with start := s.start.tail } else s

def line (t : MapSettings) : MapM Unit := do
  let startAddr ← number 16
  expect (· = '-')
  let endAddr ← number 16
  expect (· = ' ')
  expect fun c => c = 'r' ∨ c = '-'
  expect fun c => c = 'w' ∨ c = '-'
  let s ← get
  EStateM.onlyIf (peek s.start = 'x') (codeSection t (BitVec.ofInt 64 startAddr)
    (BitVec.ofInt 64 endAddr))
  skipTo IsNewline
  skipWhile IsNewline

def lines (t : MapSettings) : ℕ → MapM Unit
  | 0 => pure ()
  | n + 1 => fun s => if peek s.start = '\x00' then .ok () s else (line t >>= fun _ => lines t n) s

end MapM

open MapM in
/-- `text` is the content of the file, if it can be read; `none` when something is written outside
of `pathName`. -/
def parseMappingFile (t : MapSettings) (text : Option (List Char)) (codeSections : ℕ) :
    Option (DQErr × ℕ × List AddressMap) :=
  match text with
  | none => some (.err, codeSections, [])
  | some text =>
    let start := text.dropWhile fun c => IsNewline c ∨ c = ' '
    match lines t text.length ⟨start, 0, []⟩ with
    | .ok _ s => some (.ok, s.codeSections, s.am)
    | .error .err s => some (.err, s.codeSections, s.am)
    | .error .overrun _ => none

end TraceDecoder
