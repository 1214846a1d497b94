import TraceDecoder.Simulator

/-!
# Properties

`propertiesParser` reads a file into a buffer, which it cuts into lines by writing null characters
into it, and hands out one property at a time. The null characters behind a name and a value are
written into the line they are found in.

`none` stands for a read behind the buffer. The file can be read, and the pointers for a name and
its value are not null.
-/

namespace TraceDecoder

/-- `line`, `name` and `value` are indices into the buffer. -/
structure PropertiesLine where
  line : ℕ
  name : Option ℕ
  value : Option ℕ

structure PropertiesParser where
  status : DQErr
  propertiesBuff : List Char
  lines : Option (List PropertiesLine)
  nextLine : ℕ

namespace PropertiesParser

/-! ### The constructor -/

def countLines : List Char → ℕ
  | [] => 0
  | c :: f => (if c = '\n' then 1 else if f = [] then 1 else 0) + countLines f

/-- The loop that finds the lines, from character `i` on; `s` is set where a line starts. -/
def findLines : ℕ → Bool → List Char → List PropertiesLine
  | _, _, [] => []
  | i, s, c :: f => (if s then [⟨i, none, none⟩] else []) ++ findLines (i + 1) (c = '\n') f

def init (file : List Char) : PropertiesParser :=
  let lines := findLines 0 true file
  if lines.length ≠ countLines file then ⟨.err, [], none, 0⟩
  else ⟨.ok, file.map strip ++ ['\x00'], some lines, 0⟩

/-! ### Tokens -/

def skipBlanks : List Char → Option ℕ
  | [] => none
  | c :: s => if c = '\t' ∨ c = ' ' then (skipBlanks s).map (· + 1) else some 0

/-- The loop to the end of a token; `atStart` is set for its first character. -/
def scanToken : Bool → List Char → Option ℕ
  | _, [] => none
  | atStart, c :: s =>
    if c ∈ [' ', '#', '\x00', '\n', '\r'] then some 0
    else if c = '=' then some (if atStart then 1 else 0)
    else (scanToken false s).map (· + 1)

def getNextToken (inputText : List Char) (startIndex : ℕ) : Option (ℕ × ℕ) :=
  (skipBlanks (inputText.drop startIndex)).bind fun skipped =>
    let startIndex := startIndex + skipped
    match inputText[startIndex]? with
    | some '#' | some '\x00' | some '\n' | some '\r' => some (startIndex, startIndex)
    | _ => (scanToken true (inputText.drop startIndex)).map fun length =>
      (startIndex, startIndex + length)

/-! ### Properties -/

variable (p : PropertiesParser)

def rewind : PropertiesParser := { p with nextLine := 0 }

def stringAt (buff : List Char) (i : ℕ) : List Char := (buff.drop i).takeWhile (· ≠ '\x00')

/-- The loop that looks for a name: how many lines it passes, and the token it ends with. -/
def findName (buff : List Char) : List PropertiesLine → ℕ → Option (ℕ × ℕ × ℕ)
  | [], nameStart => some (0, nameStart, nameStart)
  | l :: ls, nameStart =>
    (getNextToken (buff.drop l.line) nameStart).bind fun (nameStart, nameEnd) =>
      if nameStart = nameEnd then (findName buff ls nameStart).map fun (passed, name) =>
        (passed + 1, name)
      else some (0, nameStart, nameEnd)

/-- What `getNextProperty` returns: an error, or the name and the value. -/
abbrev Property := Except DQErr (List Char × List Char)

def syntaxError : Property × PropertiesParser := (.error .err, { p with status := .err })

/-- The part of `getNextProperty` behind the loop, for line `l` of `lines`. -/
def getValue (lines : List PropertiesLine) (l : PropertiesLine) (nameStart nameEnd : ℕ) :
    Option (Property × PropertiesParser) :=
  let inputText := p.propertiesBuff.drop l.line
  if (nameStart : ℤ) - nameEnd = 1 ∧ inputText[nameStart]? = some '=' then some p.syntaxError
  else
    (getNextToken inputText nameEnd).bind fun (eqStart, eqEnd) =>
      if eqStart = eqEnd ∨ (eqEnd : ℤ) - eqStart ≠ 1 ∨ inputText[eqStart]? ≠ some '='
        then some p.syntaxError
      else
        (getNextToken inputText eqEnd).map fun (valueStart, valueEnd) =>
          if (valueStart : ℤ) - valueEnd = 1 ∧ inputText[nameStart]? = some '=' then p.syntaxError
          else
            let buff :=
              (p.propertiesBuff.set (l.line + nameEnd) '\x00').set (l.line + valueEnd) '\x00'
            let l :=
              { l with name := some (l.line + nameStart), value := some (l.line + valueStart) }
            (.ok (stringAt buff (l.line + nameStart), stringAt buff (l.line + valueStart)),
              { p with propertiesBuff := buff, lines := some (lines.set p.nextLine l), nextLine :=
                p.nextLine + 1 })

def getNextProperty : Option (Property × PropertiesParser) :=
  if p.status ≠ .ok then some (.error p.status, p)
  else
    match p.lines with
    | none => some (.error .eof, { p with status := .eof })
    | some lines =>
      match lines[p.nextLine]? with
      | none => some (.error .eof, p)
      | some ⟨_, some name, some value⟩ =>
        some (.ok (stringAt p.propertiesBuff name, stringAt p.propertiesBuff value),
          { p with nextLine := p.nextLine + 1 })
      | some _ =>
        (findName p.propertiesBuff (lines.drop p.nextLine) 0).bind
            fun (passed, nameStart, nameEnd) =>
          let p := { p with nextLine := p.nextLine + passed }
          match lines[p.nextLine]? with
          | none => some (.error .eof, p)
          | some l => p.getValue lines l nameStart nameEnd

/-- `n` calls, with what they return. -/
def getProperties : ℕ → PropertiesParser → Option (List Property × PropertiesParser)
  | 0, p => some ([], p)
  | n + 1, p => p.getNextProperty.bind fun (r, p) => (getProperties n p).map fun (rs, p) =>
    (r :: rs, p)

end PropertiesParser

end TraceDecoder
