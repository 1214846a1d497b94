import TraceDecoder.ITCPrint
import TraceDecoder.Lib.Scanning

/-!
# No-load strings

`parseNLSStrings` looks for numbered format strings in the `.comment` section of an elf file and
counts the conversions of each. The number of a string is a `long` that is put into an `int`, and
the mask of the signed conversions is that of the string before it with the same number as well.

`none` stands for a read behind the section or a shift by more than the bits there are.
-/

namespace TraceDecoder

open CString

abbrev NlStrings := ℕ → NlString

/-! ### Numbers -/

def unsigned (s : List Char) : List Char :=
  let t := s.dropWhile (IsSpace ·)
  if peek t = '-' ∨ peek t = '+' then t.tail else t

/-- The base of `strtol` with base 0. -/
def autoBase (s : List Char) : ℕ :=
  let t := unsigned s
  if peek t = '0' then if digitVal (peek t.tail) = 33 ∧ IsDigit 16 (peek t.tail.tail) then 16
    else 8 else 10

/-- `strtol` with base 0; a `long` has 64 bits. -/
def strtol (s : List Char) : ℤ × List Char := strtoll (autoBase s) s

/-- A `long` that is put into an `int`. -/
def toInt (n : ℤ) : ℤ := (BitVec.ofInt 32 n).toInt

/-! ### Formats -/

def IsSigned (c : Char) : Prop := c = 'd' ∨ c = 'i'

instance : DecidablePred IsSigned := fun c => inferInstanceAs (Decidable (c = 'd' ∨ c = 'i'))

def IsUnsigned (c : Char) : Prop :=
  c ∈ ['o', 'u', 'x', 'X', 'e', 'E', 'f', 'F', 'g', 'G', 'a', 'A', 'c', 's', 'p', 'n', 'M']

instance : DecidablePred IsUnsigned := fun c => List.instDecidableMemOfLawfulBEq c _

/-- The scanner of the format: whether it is behind a `%`, and what it has found. -/
structure FormatScan where
  state : Bool
  nf : ℕ
  signedMask : BitVec 32

def FormatScan.step (f : FormatScan) (c : Char) : Option FormatScan :=
  if f.state then
    if c = '%' then some { f with state := false }
    else if IsSigned c then
      if f.nf < 32 then some ⟨false, f.nf + 1, f.signedMask ||| 1#32 <<< f.nf⟩ else none
    else if IsUnsigned c then some ⟨false, f.nf + 1, f.signedMask⟩
    else some f
  else some { f with state := c = '%' }

/-- The loop up to the end of the format, with the format and what is behind its null character. -/
def scanFormat : FormatScan → List Char → Option (FormatScan × List Char × List Char)
  | _, [] => none
  | f, c :: rest =>
    if c = '\x00' then some (f, [], rest)
    else (f.step c).bind fun f => (scanFormat f rest).map fun r => (r.1, c :: r.2.1, r.2.2)

/-! ### The section -/

def skipString (data : List Char) : List Char := (data.dropWhile (· ≠ '\x00')).tail

def parseStrings : ℕ → NlStrings → List Char → Option NlStrings
  | 0, _, _ => none
  | fuel + 1, nls, data =>
    if data = [] then some nls
    else if '\x00' ∉ data then none
    else
      let (value, rest) := strtol data
      let index := toInt value
      if rest.length ≠ data.length then
        if 32 ≤ index ∨ index < 0 ∨ peek rest ≠ ':' then parseStrings fuel nls (skipString rest)
        else
          match scanFormat ⟨false, 0, (nls index.toNat).signedMask⟩ rest.tail with
          | none => none
          | some (f, format, rest) =>
            parseStrings fuel (Function.update nls index.toNat ⟨f.nf, f.signedMask,
              some (String.ofList format)⟩) rest
      else parseStrings fuel nls (skipString data)

def parseNLSStrings (data : List Char) : Option NlStrings :=
  parseStrings (data.length + 1) (fun _ => ⟨0, 0, none⟩) data

/-! ### What the strings say -/

/-- The conversions of a format, each by its character: the first one
behind a `%` that makes one. -/
def conversions : Bool → List Char → List Char
  | _, [] => []
  | false, c :: text => conversions (c = '%') text
  | true, c :: text =>
    if c = '%' then conversions false text
    else if IsSigned c ∨ IsUnsigned c then c :: conversions false text
    else conversions true text

/-- Conversion `k` is signed. -/
def SignedAt (cs : List Char) (k : ℕ) : Prop := ∃ c ∈ cs[k]?, IsSigned c

def signOf (s : List Char) : ℤ := if peek (s.dropWhile (IsSpace ·)) = '-' then -1 else 1

def digitsOf (s : List Char) : List Char :=
  (skipPrefix (autoBase s) (unsigned s)).takeWhile (IsDigit (autoBase s) ·)

def behindDigits (s : List Char) : List Char :=
  (skipPrefix (autoBase s) (unsigned s)).dropWhile (IsDigit (autoBase s) ·)

/-- The number in front of the colon, as it is written, and the text behind it. -/
def numberOf (s : List Char) : Option (ℤ × List Char) :=
  if digitsOf s ≠ [] ∧ peek (behindDigits s) = ':' then
    some (signOf s * ofDigits (autoBase s) (digitsOf s), (behindDigits s).tail)
  else none

/-- The text of a string with number `k`. -/
def textAt (k : ℕ) (s : List Char) : Option (List Char) :=
  (numberOf s).bind fun p => if p.1 = k then some p.2 else none

/-- The text of a string that is taken for one with number `k`. -/
def takenAt (k : ℕ) (s : List Char) : Option (List Char) :=
  (numberOf s).bind fun p => if toInt (clampInt64 p.1) = k then some p.2 else none

def sectionOf (strings : List (List Char)) : List Char := strings.flatMap fun s => s ++ ['\x00']

/-- What is kept for a number is what the last string with that number says. -/
structure KeepsLast (nls : NlString) (text : Option (List Char)) : Prop where
  format : nls.format = text.map String.ofList
  nf : nls.nf = (conversions false (text.getD [])).length
  signedMask : ∀ k, nls.signedMask.getLsbD k = true ↔ SignedAt (conversions false (text.getD [])) k

/-- Nothing is read behind the section, and the strings are those with a number. -/
def ParsesStrings (strings : List (List Char)) : Prop :=
  ∃ nls, parseNLSStrings (sectionOf strings) = some nls ∧
    ∀ k < 32, KeepsLast (nls k) (strings.filterMap (textAt k)).getLast?

end TraceDecoder
