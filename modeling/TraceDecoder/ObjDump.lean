import TraceDecoder.Basic

/-!
# Tokens of the output of objdump

The part of `ObjDump` that takes characters out of the pipe: the tokens, the rest of a line, the
look-ahead and the columns with the flags of a symbol. All of them refill the same buffer.
-/

namespace TraceDecoder

inductive ObjDumpTokenType
  | error | eol | eof | colon | lt | gt | lp | rp | comma | string | number
  deriving DecidableEq, Repr

/-- The flags of a `Sym`. -/
def symLocal : BitVec 32 := 1 <<< 0
def symGlobal : BitVec 32 := 1 <<< 1
def symWeak : BitVec 32 := 1 <<< 2
def symConstructor : BitVec 32 := 1 <<< 3
def symIndirect : BitVec 32 := 1 <<< 4
def symIndirectFunc : BitVec 32 := 1 <<< 5
def symDebug : BitVec 32 := 1 <<< 6
def symDynamic : BitVec 32 := 1 <<< 7
def symFunc : BitVec 32 := 1 <<< 8
def symFile : BitVec 32 := 1 <<< 9
def symObj : BitVec 32 := 1 <<< 10

/-- The pipe and its buffer. Each call of `read` takes the head of `reads`, where `none` is an
error; behind the end of the list there is the end of the file. The constructors set `pipeEOF` only
where they return without reading. -/
structure ObjDump where
  stdoutPipe : ℤ
  pipeEOF : Bool
  pipeBuffer : List Char
  (pipeIndex endOfBuffer : ℕ)
  reads : List (Option (List Char))
  reading : pipeEOF = false

namespace ObjDump

/-- A pipe that has been opened; the buffer holds what was in the memory before. -/
def init (stdoutPipe : ℕ) (pipeBuffer : List Char) (reads : List (Option (List Char))) :
    ObjDump where
  stdoutPipe := stdoutPipe
  pipeEOF := false
  pipeBuffer := pipeBuffer
  pipeIndex := 0
  endOfBuffer := 0
  reads := reads
  reading := rfl

variable (s : ObjDump)

def fillPipeBuffer : DQErr × ObjDump :=
  if s.pipeEOF then (.ok, s)
  else if s.stdoutPipe < 0 then (.err, s)
  else
    match s.reads with
    | [] => (.ok, { s with pipeEOF := false, endOfBuffer := 0, pipeIndex := 0, reading := rfl })
    | none :: reads => (.err, { s with reads := reads })
    | some chars :: reads =>
      (.ok, { s with
        pipeBuffer := chars ++ s.pipeBuffer.drop chars.length
        endOfBuffer := chars.length
        pipeIndex := 0
        reads := reads })

def pipeChar : Char := s.pipeBuffer.getD s.pipeIndex '\x00'

def nextIndex : ObjDump := { s with pipeIndex := s.pipeIndex + 1 }

def refill : DQErr × ObjDump := if s.endOfBuffer ≤ s.pipeIndex then s.fillPipeBuffer else (.ok, s)

/-- For an error the result is `odtt_error`, which is 0. -/
def isWSLookahead : Bool × ObjDump :=
  match s.refill with
  | (.ok, s) =>
    if s.endOfBuffer = 0 then (false, s) else (s.pipeChar == ' ' || s.pipeChar == '\t', s)
  | (_, s) => (false, s)

section

variable (stop keep : Char → Bool)

/-- The inner loop over the characters in the buffer, up to one at which it stops. -/
def scanBuffer : ℕ → List Char → ObjDump → Bool × List Char × ObjDump
  | 0, lex, s => (false, lex, s)
  | n + 1, lex, s =>
    if stop s.pipeChar then (true, lex, s)
    else scanBuffer n (if keep s.pipeChar then lex ++ [s.pipeChar] else lex) s.nextIndex

variable {stop keep s}

theorem scanBuffer_reads (n : ℕ) (lex : List Char) : (scanBuffer stop keep n lex s).2.2.reads =
    s.reads := by
  induction n generalizing lex s with
  | zero => rfl
  | succ n ih =>
    unfold scanBuffer
    split_ifs
    · rfl
    · exact ih _
    · exact ih _

/-- Where there are characters after a fill, a result of `read` has been used. -/
theorem fillPipeBuffer_reads (hchars : s.fillPipeBuffer.2.endOfBuffer ≠ 0)
    (hok : s.fillPipeBuffer.1 = .ok) :
    s.fillPipeBuffer.2.reads.length < s.reads.length := by
  obtain ⟨stdoutPipe, pipeEOF, pipeBuffer, pipeIndex, endOfBuffer, reads, rfl⟩ := s
  by_cases hpipe : stdoutPipe < 0
  · simp [fillPipeBuffer, hpipe] at hok
  · match reads with
    | [] => simp [fillPipeBuffer, hpipe] at hchars
    | none :: reads => simp [fillPipeBuffer, hpipe]
    | some chars :: reads => simp [fillPipeBuffer, hpipe]

end

inductive Scan
  | found | eof | error
  deriving DecidableEq, Repr

/-- The nested loops: through the buffer, then fill it, up to a character at which they stop. -/
def scan (stop keep : Char → Bool) (lex : List Char) (s : ObjDump) : Scan × List Char × ObjDump :=
  let r := scanBuffer stop keep (s.endOfBuffer - s.pipeIndex) lex s
  if r.1 then (.found, r.2)
  else if r.2.2.fillPipeBuffer.1 = .ok then
    if r.2.2.fillPipeBuffer.2.endOfBuffer = 0 then (.eof, r.2.1, r.2.2.fillPipeBuffer.2)
    else scan stop keep r.2.1 r.2.2.fillPipeBuffer.2
  else (.error, r.2.1, r.2.2.fillPipeBuffer.2)
termination_by s.reads.length
decreasing_by
  exact Nat.lt_of_lt_of_eq (fillPipeBuffer_reads ‹_› ‹_›)
    (congrArg List.length (scanBuffer_reads _ lex))

def stripWS : Scan × List Char × ObjDump :=
  scan (fun c => !(c == ' ' || c == '\r' || c == '\t')) (fun _ => false) [] s

def charToken : Char → Option ObjDumpTokenType
  | ',' => some .comma
  | ':' => some .colon
  | '<' => some .lt
  | '>' => some .gt
  | '(' => some .lp
  | ')' => some .rp
  | '\n' => some .eol
  | _ => none

def endsString (c : Char) : Bool := [' ', '\t', '\r', '\n', ':', '<', '>', ',', '(', ')'].contains c

def getNextLex : ObjDumpTokenType × List Char × ObjDump :=
  match s.stripWS with
  | (.error, lex, s) => (.error, lex, s)
  | (.eof, lex, s) => (.eof, lex, s)
  | (.found, lex, s) =>
    match charToken s.pipeChar with
    | some token => (token, lex, s.nextIndex)
    | none =>
      match scan endsString (fun _ => true) lex s with
      | (.error, r) => (.error, r)
      | (_, r) => (.string, r)

def getRestOfLine : ObjDumpTokenType × List Char × ObjDump :=
  match s.stripWS with
  | (.error, lex, s) => (.error, lex, s)
  | (.eof, lex, s) => (.eof, lex, s)
  | (.found, lex, s) =>
    if s.pipeChar = '\n' then (.eol, lex, s.nextIndex)
    else
      match scan (fun c => c == '\n') (fun c => !(c == '\r')) lex s with
      | (.error, r) => (.error, r)
      | (.eof, r) => (.eof, r)
      | (.found, r) => (.eol, r)

/-- The loop for the flag characters; `none` for an error or the end of the file. -/
def readFlagChars : ℕ → List Char → ObjDump → Option (List Char) × ObjDump
  | 0, flagChars, s => (some flagChars, s)
  | n + 1, flagChars, s =>
    match s.refill with
    | (.ok, s) =>
      if s.endOfBuffer = 0 then (none, s) else readFlagChars n (flagChars ++ [s.pipeChar])
        s.nextIndex
    | (_, s) => (none, s)

def symGroups : List (List (Char × BitVec 32)) :=
  [[(' ', 0), ('l', symLocal), ('g', symGlobal), ('u', symGlobal), ('!', symLocal ||| symGlobal)],
    [(' ', 0), ('w', symWeak)],
    [(' ', 0), ('C', symConstructor)],
    [(' ', 0), ('W', 0)],
    [(' ', 0), ('I', symIndirect), ('i', symIndirectFunc)],
    [(' ', 0), ('d', symDebug), ('D', symDynamic)],
    [(' ', 0), ('F', symFunc), ('f', symFile), ('O', symObj)]]

def addFlags : List (List (Char × BitVec 32)) → List Char → BitVec 32 → DQErr × BitVec 32
  | group :: groups, c :: flagChars, flags =>
    match group.lookup c with
    | some flag => addFlags groups flagChars (flags ||| flag)
    | none => (.err, flags)
  | _, _, flags => (.ok, flags)

def parseFixedField : (DQErr × BitVec 32) × ObjDump :=
  match s.refill with
  | (.ok, s) =>
    if s.endOfBuffer = 0 then ((.err, 0), s)
    else if s.pipeChar ≠ ' ' then ((.err, 0), s)
    else
      match readFlagChars 7 [] s.nextIndex with
      | (none, s) => ((.err, 0), s)
      | (some flagChars, s) => (addFlags symGroups flagChars 0, s)
  | (_, s) => ((.err, 0), s)

inductive Call
  | getNextLex | getRestOfLine | isWSLookahead | parseFixedField
  deriving DecidableEq, Repr

inductive Result
  | lex (token : ObjDumpTokenType) (text : List Char)
  | lookahead (isWS : Bool)
  | fixedField (rc : DQErr) (flags : BitVec 32)
  deriving DecidableEq, Repr

def call : Call → Result × ObjDump
  | .getNextLex => (.lex s.getNextLex.1 s.getNextLex.2.1, s.getNextLex.2.2)
  | .getRestOfLine => (.lex s.getRestOfLine.1 s.getRestOfLine.2.1, s.getRestOfLine.2.2)
  | .isWSLookahead => (.lookahead s.isWSLookahead.1, s.isWSLookahead.2)
  | .parseFixedField =>
    (.fixedField s.parseFixedField.1.1 s.parseFixedField.1.2, s.parseFixedField.2)

def results (s : ObjDump) : List Call → List Result
  | [] => []
  | c :: cs => (s.call c).1 :: results (s.call c).2 cs

end ObjDump

end TraceDecoder
