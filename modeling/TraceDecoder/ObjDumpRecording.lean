import Mathlib.Tactic.IntervalCases
import TraceDecoder.ObjDumpLines

/-!
# Recording a listing

The loop over the lines of a disassembly: what it does with each line that can be read, and from
that what is in the arrays of the section behind the last one.
-/

namespace TraceDecoder

open CString Dialogue

namespace ObjDump

/-! ### Lines as steps -/

/-- The name that is recorded: where the drive is a digit of the hexadecimal system, with that digit
in upper case, where it is another letter, without a drive. -/
def SourceLine.recorded (l : SourceLine) : List Char :=
  match l.drive with
  | none => l.path
  | some d => if IsDigit 16 d then Parser.hexUpper (BitVec.ofNat 32 (digitVal d)) ++ ':' :: l.path
      else l.path

namespace Parser

def Listing.enter (s : Listing) : ListingLine → Listing
  | .blank => s
  | .label _ _ | .func _ | .dots _ => s.reset
  | .source l => s.setFile l.recorded (BitVec.ofNat 32 l.line.value)
  | .inst l => s.disassembled l.addr (if l.encoding.digits.length = 4 then 16 else 32)
      l.value l.text

/-! ### The loop -/

def listingStep (k : ℕ) (s : Listing) :
    Bool × ObjDumpTokenType × List Char → Parser (Listing × ObjDumpTokenType × List Char)
  | (_, .lt, _) => do
    unknownFile k
    listing k s (.eol, [])
  | (eol, .string, lex) => do
    match ← listingLine s eol lex with
    | some s => do
      let r ← getNextLex 1024
      listing k s r
    | none => do
      write (.copy 256 lex)
      pure (s, .string, lex)
  | (_, type, lex) => do
    write (.copy 256 lex)
    pure (s, type, lex)

theorem listing_succ (k : ℕ) (s : Listing) (r : ObjDumpTokenType × List Char) :
    listing (k + 1) s r = skipEols 1024 k false r >>= listingStep k s := by
  rw [listing]
  refine congrArg _ (funext fun ⟨eol, type, lex⟩ => ?_)
  cases type <;> rfl

def resume (j k : ℕ) (eol : Bool) (s : Listing) : Parser (Listing × ObjDumpTokenType × List Char) :=
  getNextLex 1024 >>= fun r => skipEols 1024 j eol r >>= listingStep k s

/-- From one place in front of a token the loop comes to another with all but some of its fuel. -/
def Leads (eol : Bool) (s : Listing) (t : List Char) (eol' : Bool) (s' : Listing) (t' : List Char)
    (fits : Prop) : Prop :=
  ∃ n, ∀ m j k, m + n ≤ j → m + n ≤ k → ∃ j' k', m ≤ j' ∧ m ≤ k' ∧
    Goes (resume j k eol s) t (resume j' k' eol' s') t' fits

namespace Leads

variable {eol eol₁ eol' : Bool} {s s₁ s' : Listing} {t t₁ t₂ t' : List Char} {P Q : Prop}

theorem refl (eol : Bool) (s : Listing) (t : List Char) : Leads eol s t eol s t True :=
  ⟨0, fun _ j k hj hk => ⟨j, k, hj, hk, .refl _ t⟩⟩

theorem trans (h : Leads eol s t eol₁ s₁ t₁ P) (h' : Leads eol₁ s₁ t₁ eol' s' t' Q) :
    Leads eol s t eol' s' t' (P ∧ Q) := by
  obtain ⟨n, hn⟩ := h
  obtain ⟨n', hn'⟩ := h'
  refine ⟨n' + n, fun m j k hj hk => ?_⟩
  obtain ⟨j₁, k₁, hj₁, hk₁, hgoes⟩ := hn (m + n') j k (by omega) (by omega)
  obtain ⟨j', k', hj', hk', hgoes'⟩ := hn' m j₁ k₁ hj₁ hk₁
  exact ⟨j', k', hj', hk', hgoes.trans hgoes'⟩

theorem congr (h : Leads eol s t eol' s' t' P) (hiff : P ↔ Q) : Leads eol s t eol' s' t' Q := by
  obtain ⟨n, hn⟩ := h
  refine ⟨n, fun m j k hj hk => ?_⟩
  obtain ⟨j', k', hj', hk', hgoes⟩ := hn m j k hj hk
  exact ⟨j', k', hj', hk', hgoes.congr hiff⟩

theorem newline (eol : Bool) (s : Listing) (t : List Char) :
    Leads eol s ('\n' :: t) true s t True := by
  refine ⟨1, fun m j k hj hk => ?_⟩
  obtain ⟨j, rfl⟩ : ∃ i, j = i + 1 := ⟨j - 1, by omega⟩
  refine ⟨j, k, by omega, by omega, ?_⟩
  have hlex : Reads (getNextLex 1024) ('\n' :: t) (.eol, []) t True :=
    lex_char 1024 (by decide) rfl rfl
  have hgoes := hlex.goes fun r => skipEols 1024 (j + 1) eol r >>= listingStep k s
  rw [skipEols, if_pos rfl, bind_assoc] at hgoes
  exact hgoes

theorem line {w : List Char} (hlex : Reads (getNextLex 1024) t (.string, w) t₁ P)
    (hline : Reads (listingLine s eol w) t₁ (some s₁) t₂ Q) :
    Leads eol s t false s₁ t₂ (P ∧ Q) := by
  refine ⟨1, fun m j k hj hk => ?_⟩
  obtain ⟨j, rfl⟩ : ∃ i, j = i + 1 := ⟨j - 1, by omega⟩
  obtain ⟨k, rfl⟩ : ∃ i, k = i + 1 := ⟨k - 1, by omega⟩
  refine ⟨k, k, by omega, by omega, ?_⟩
  have hskip : skipEols 1024 (j + 1) eol (.string, w) = pure (eol, .string, w) := if_neg nofun
  have hgoes := hlex.goes fun r => skipEols 1024 (j + 1) eol r >>= listingStep (k + 1) s
  rw [hskip] at hgoes
  refine hgoes.trans ?_
  have hnext := hline.goes fun s' => match s' with
    | some s => getNextLex 1024 >>= fun r => listing (k + 1) s r
    | none => write (.copy 256 w) >>= fun _ => pure (s, .string, w)
  have hresume : resume k k false s₁ = getNextLex 1024 >>= listing (k + 1) s₁ :=
    congrArg _ (funext fun r => (listing_succ k s₁ r).symm)
  rw [hresume]
  exact hnext

end Leads

/-- With enough fuel the loop comes to this end, and all that is written fits
exactly if `fits` holds. -/
def Ends (eol : Bool) (s : Listing) (t : List Char) (s' : Listing)
    (r : ObjDumpTokenType × List Char) (t' : List Char) (fits : Prop) : Prop :=
  ∃ n, ∀ j k, n ≤ j → n ≤ k → Reads (resume j k eol s) t (s', r) t' fits

theorem Ends.congr {eol : Bool} {s s' : Listing} {t t' : List Char}
    {r : ObjDumpTokenType × List Char} {P Q : Prop}
    (h : Ends eol s t s' r t' P) (hiff : P ↔ Q) : Ends eol s t s' r t' Q := by
  obtain ⟨n, hn⟩ := h
  exact ⟨n, fun j k hj hk => (hn j k hj hk).congr hiff⟩

theorem Leads.ends {eol eol₁ : Bool} {s s₁ s' : Listing} {t t₁ t' : List Char}
    {r : ObjDumpTokenType × List Char}
    {P Q : Prop} (h : Leads eol s t eol₁ s₁ t₁ P) (h' : Ends eol₁ s₁ t₁ s' r t' Q) :
    Ends eol s t s' r t' (P ∧ Q) := by
  obtain ⟨n, hn⟩ := h
  obtain ⟨n', hn'⟩ := h'
  refine ⟨n' + n, fun j k hj hk => ?_⟩
  obtain ⟨j', k', hj', hk', hgoes⟩ := hn n' j k hj hk
  exact hgoes.reads (hn' j' k' hj' hk')

theorem ends_eof (eol : Bool) (s : Listing) : Ends eol s [] s (.eof, []) [] True := by
  refine ⟨1, fun j k hj hk => ?_⟩
  obtain ⟨j, rfl⟩ : ∃ i, j = i + 1 := ⟨j - 1, by omega⟩
  have hnil : ([] : List Char).length < 1024 ∧ ([] : List Char).length < 256 := by decide
  refine ⟨rfl, iff_of_true (fun w hw => ?_) trivial⟩
  rcases List.mem_cons.mp hw with rfl | hw
  · exact hnil.1
  · rw [List.mem_singleton.mp hw]
    exact hnil.2

/-! ### The kinds of lines -/

theorem hexDigit_mem {c : Char} (h : IsDigit 16 c) : c ∈ "0123456789abcdefABCDEF".toList := by
  have hnat : 48 ≤ c.toNat ∧ c.toNat ≤ 57 ∨ 97 ≤ c.toNat ∧ c.toNat ≤ 102 ∨ 65 ≤ c.toNat ∧
      c.toNat ≤ 70 := by
    unfold IsDigit digitVal at h
    split_ifs at h <;> omega
  rw [← Char.ofNat_toNat c]
  generalize c.toNat = n at hnat
  rcases hnat with ⟨hlow, hhigh⟩ | ⟨hlow, hhigh⟩ | ⟨hlow, hhigh⟩ <;> interval_cases n <;> decide

theorem toLower_ne_s {c : Char} (h : IsDigit 16 c) : c.toLower ≠ 's' :=
  (show ∀ c ∈ "0123456789abcdefABCDEF".toList, c.toLower ≠ 's' by decide) c (hexDigit_mem h)

/-- The word for another table is no number and no dots. -/
theorem not_number_of_table {word lex : List Char} (hs : 's' ∈ word)
    (h : strcasecmp word lex = true)
    (hword : word.map Char.toLower = word) : isStringAHexNumber lex = none := by
  have heq : word.map Char.toLower = lex.map Char.toLower := eq_of_beq h
  rw [hword] at heq
  rw [heq] at hs
  obtain ⟨c, hc, hlower⟩ := List.mem_map.mp hs
  exact isStringAHexNumber_none ⟨c, hc, fun hdigit => toLower_ne_s hdigit hlower⟩

theorem dots_not_hex : isStringAHexNumber "...".toList = none := by decide

theorem hexUpper_length {d : Char} (h : IsDigit 16 d) :
    (hexUpper (BitVec.ofNat 32 (digitVal d))).length = 1 := by
  have hlt : digitVal d < 16 := h
  have hall : ∀ n < 16, (hexUpper (BitVec.ofNat 32 n)).length = 1 := by decide
  exact hall _ hlt

theorem name_letter {d : Char} (hd : d.isAlpha = true) : Name [d] := by
  refine ⟨List.cons_ne_nil d [], List.forall_mem_singleton.mpr
    ⟨?_, fun h => by rw [h] at hd; cases hd⟩⟩
  unfold endsString
  rw [List.contains_eq_any_beq, List.any_eq_false]
  intro c hc heq
  obtain rfl := eq_of_beq heq
  simp only [List.mem_cons, List.not_mem_nil, or_false] at hc
  rcases hc with rfl | rfl | rfl | rfl | rfl | rfl | rfl | rfl | rfl | rfl <;> cases hd

variable {eol : Bool} {s : Listing} {lex t t' : List Char} {P : Prop}

theorem numberLine_some {addr : ADDRESS} {s' : Listing}
    (hnumber : isStringAHexNumber lex = some addr)
    (hread : Reads (numberLine s addr) t s' t' P) :
    Reads (listingLine s eol lex) t (some s') t' P := by
  have hdots : lex ≠ "...".toList := fun h => by
    rw [h, dots_not_hex] at hnumber
    cases hnumber
  rw [listingLine, if_neg hdots, hnumber]
  exact hread.last (.pure _ _)

theorem nameLine_some {s' : Listing} (hdots : lex ≠ "...".toList)
    (hnumber : isStringAHexNumber lex = none)
    (htable : eol = true → strcasecmp "disassembly".toList lex = false ∧
      strcasecmp "symbol".toList lex = false)
    (hpath : peek lex ≠ '/' ∧ peek lex ≠ '\\') (hread : Reads (nameLine s lex) t s' t' P) :
    Reads (listingLine s eol lex) t (some s') t' P := by
  have hword : ¬ (eol = true ∧ (strcasecmp "disassembly".toList lex = true ∨
      strcasecmp "symbol".toList lex = true)) := by
    rintro ⟨heol, h⟩
    obtain ⟨hdis, hsym⟩ := htable heol
    rw [hdis, hsym] at h
    exact h.elim nofun nofun
  have hslash : ¬ (peek lex = '/' ∨ peek lex = '\\') := fun h => h.elim hpath.1 hpath.2
  rw [listingLine, if_neg hdots, hnumber]
  dsimp only
  rw [if_neg hword, if_neg hslash]
  exact hread.last (.pure _ _)

theorem pathLine_some {line : BitVec 32} (hlex : lex.head? = some '/')
    (hread : Reads parseFileLine t line t' P) :
    Reads (listingLine s eol lex) t (some (s.setFile lex line)) t' P := by
  obtain ⟨path, rfl⟩ : ∃ path, lex = '/' :: path := by
    cases lex with
    | nil => cases hlex
    | cons c path => exact ⟨path, by rw [Option.some.inj hlex]⟩
  have hnumber : isStringAHexNumber ('/' :: path) = none :=
    isStringAHexNumber_none ⟨'/', List.mem_cons_self, by decide⟩
  have hword : ¬ (eol = true ∧ (strcasecmp "disassembly".toList ('/' :: path) = true ∨
      strcasecmp "symbol".toList ('/' :: path) = true)) := by
    rintro ⟨-, h⟩
    rcases h with h | h
    · exact absurd (List.cons.inj (eq_of_beq h)).1 (by decide)
    · exact absurd (List.cons.inj (eq_of_beq h)).1 (by decide)
  rw [listingLine, if_neg (by simp), hnumber]
  dsimp only
  rw [if_neg hword, if_pos (.inl rfl)]
  exact hread.last (.pure _ _)

theorem drive_reads (rest : List Char) {l : SourceLine} {d : Char} (hl : l.Legible)
    (hdrive : l.drive = some d) :
    Reads (listingLine s eol [d]) (pathThen rest l)
      (some (s.setFile l.recorded (BitVec.ofNat 32 l.line.value))) rest
      l.Fits := by
  have hpath := path_reads rest hl (by rw [hdrive]; exact nofun)
  -- the two parts and the colon in one array decide
  have hfits : (l.path.length < 1024 ∧ l.NumbersFit) ∧ l.path.length + 2 < 1024 ↔ l.Fits := by
    refine ⟨fun h => ⟨?_, h.1.2⟩, fun h => ?_⟩
    · rw [hdrive]
      change l.path.length + 2 < 1024
      exact h.2
    · have hshort := h.path
      rw [hdrive] at hshort
      have hshort' : l.path.length + 2 < 1024 := hshort
      exact ⟨⟨by omega, h.numbers⟩, hshort'⟩
  have halpha : d.isAlpha = true := l.letter d hdrive
  have hne (c : Char) (hc : c.isAlpha = false) : d ≠ c := fun h => by
    rw [h, hc] at halpha
    cases halpha
  have hshort (word : List Char) (hword : word.length ≠ 1) : strcasecmp word [d] = false := by
    rw [Bool.eq_false_iff]
    intro h
    have hlength := congrArg List.length (eq_of_beq h)
    rw [List.length_map, List.length_map] at hlength
    exact hword hlength
  rw [SourceLine.recorded, hdrive]
  dsimp only
  by_cases hdigit : IsDigit 16 d
  · have hnumber : isStringAHexNumber [d] = some (BitVec.ofNat 64 (digitVal d)) := by
      rw [isStringAHexNumber, if_pos (List.forall_mem_singleton.mpr hdigit)]
      simp
    rw [if_pos hdigit]
    refine numberLine_some hnumber ?_
    have hwidth : (BitVec.ofNat 64 (digitVal d)).setWidth 32 = BitVec.ofNat 32 (digitVal d) :=
      BitVec.setWidth_ofNat_of_le (by decide) _
    have hupper := hexUpper_length hdigit
    rw [← hwidth] at hupper ⊢
    set name := hexUpper ((BitVec.ofNat 64 (digitVal d)).setWidth 32) ++ ':' :: l.path with hname
    have hjoin : Reads (write (.join 1024 name) >>= fun _ =>
        pure (s.setFile name (BitVec.ofNat 32 l.line.value))) rest
          (s.setFile name (BitVec.ofNat 32 l.line.value)) rest (Note.join 1024 name).Fits :=
          (Reads.write _ rest).last (.pure _ rest)
    refine (hpath.bind hjoin).congr (Iff.trans (and_congr_right fun _ => ?_) hfits)
    rw [Note.Fits, hname, List.length_append, hupper, List.length_cons]
    omega
  · rw [if_neg hdigit]
    refine nameLine_some (by simp) (isStringAHexNumber_none ⟨d, List.mem_cons_self, hdigit⟩)
      (fun _ => ⟨hshort _ (by decide), hshort _ (by decide)⟩) ⟨hne '/' rfl, hne '\\' rfl⟩ ?_
    have hcolon : (Note.join 1024 ([d] ++ [':'])).Fits ↔ True :=
      iff_of_true (show 2 < 1024 by decide) trivial
    have hjoin : Reads (write (.join 1024 ([d] ++ ':' :: l.path)) >>= fun _ =>
        pure (s.setFile l.path (BitVec.ofNat 32 l.line.value))) rest
          (s.setFile l.path (BitVec.ofNat 32 l.line.value)) rest
        (Note.join 1024 ([d] ++ ':' :: l.path)).Fits := (Reads.write _ rest).last (.pure _ rest)
    refine (hpath.bind (((Reads.write _ rest).congr hcolon).step hjoin)).congr
      (Iff.trans (and_congr_right fun _ => ?_) hfits)
    rw [Note.Fits, List.length_append, List.length_singleton, List.length_cons]
    omega

namespace Leads

theorem label {address : Numeral 16} {name : List Char} (hname : Name name) :
    Leads eol s ((ListingLine.label address name).textThen t) false s.reset t
      (ListingLine.label address name).Fits :=
  line (lex_word 1024 (name_digits le_rfl address) (by rintro c ⟨⟩; rfl))
    (numberLine_some (isStringAHexNumber_numeral address) ((label_reads t hname).last (.pure _ t)))

theorem func {name : List Char} (hname : FuncName eol name) :
    Leads eol s ((ListingLine.func name).textThen t) false s.reset t
      (ListingLine.func name).Fits := by
  have hline : Reads (listingLine s eol name) ('(' :: ')' :: ':' :: '\n' :: t) (some s.reset)
      t True := by
    cases hnumber : isStringAHexNumber name with
    | some addr => exact numberLine_some hnumber ((func_reads t).step (.pure _ t))
    | none =>
      exact nameLine_some hname.not_dots hnumber hname.not_table hname.not_path
        ((func_reads t).step (.pure _ t))
  exact (line (lex_word 1024 hname.toName (by rintro c ⟨⟩; rfl)) hline).congr (and_iff_left trivial)

theorem dots {indent : List Char} (hindent : ∀ c ∈ indent, IsBlank c) :
    Leads eol s ((ListingLine.dots indent).textThen t) false s.reset t
      (ListingLine.dots indent).Fits := by
  have hdots : Name "...".toList := ⟨by decide, by decide⟩
  have hshort : "...".toList.length < 1024 ↔ True := iff_of_true (by decide) trivial
  have hline : Reads (listingLine s eol "...".toList) ('\n' :: t) (some s.reset) t True := by
    rw [listingLine, if_pos rfl]
    exact (expect_char 1024 (by decide) rfl rfl).step (.pure _ t)
  exact (line ((blanks_lex_word 1024 hindent hdots (by rintro c ⟨⟩; rfl)).congr hshort) hline).congr
    (and_iff_left trivial)

theorem source {l : SourceLine} (hl : l.Legible) :
    Leads eol s ((ListingLine.source l).textThen t) false
      (s.setFile l.recorded (BitVec.ofNat 32 l.line.value)) t (ListingLine.source l).Fits := by
  cases hdrive : l.drive with
  | none =>
    have hrecorded : l.recorded = l.path := by rw [SourceLine.recorded, hdrive]
    have htext : (ListingLine.source l).textThen t =
        l.path ++ ':' :: (l.line.digits ++ (discriminatorText l.discriminator ++ '\n' :: t)) := by
      rw [ListingLine.textThen, hdrive]
      rfl
    have hfits : l.path.length < 1024 ∧ l.NumbersFit ↔ l.Fits := by
      refine ⟨fun h => ⟨?_, h.2⟩, fun h => ⟨?_, h.numbers⟩⟩
      · rw [hdrive]
        exact h.1
      · have hpath := h.path
        rw [hdrive] at hpath
        exact hpath
    rw [htext, hrecorded]
    exact (line (lex_word 1024 hl.name (by rintro c ⟨⟩; rfl))
      (pathLine_some (l.rooted hdrive) (parseFileLine_reads t l))).congr hfits
  | some d =>
    have htext : (ListingLine.source l).textThen t = [d] ++ pathThen t l := by
      rw [ListingLine.textThen, hdrive]
      rfl
    have hshort : [d].length < 1024 ↔ True := iff_of_true (show 1 < 1024 by decide) trivial
    rw [htext]
    exact (line ((lex_word 1024 (name_letter (l.letter d hdrive)) (by rintro c ⟨⟩; rfl)).congr
      hshort) (drive_reads t hl hdrive)).congr (and_iff_right trivial)

/-- Behind the text of an instruction the end of its line is still to be read. -/
theorem inst (l : InstLine) :
    Leads eol s ((ListingLine.inst l).textThen t) (l.text ≠ [])
      (s.disassembled l.addr (if l.encoding.digits.length = 4 then 16 else 32) l.value l.text) t
      (ListingLine.inst l).Fits := by
  have hindent : ∀ c ∈ l.indent, IsBlank c := fun c hc => l.blanks c (by simp [hc])
  have hcell : ∀ {γ : Type} (cells : Option (Cells γ)) (i : ℤ) (v : List Char),
      Reads (useCell cells i) v () v True :=
    fun cells i v => Reads.write _ v
  have hline : Reads (numberLine s l.addr)
      (':' :: (l.gap ++ (l.encoding.digits ++ (l.tab ++ (l.text ++ '\n' :: t)))))
        (s.disassembled l.addr (if l.encoding.digits.length = 4 then 16 else 32) l.value l.text)
        (restThen t l)
      (l.text.length < 1024) := by
    have hhigh : Reads (onlyIf ((if l.encoding.digits.length = 4 then 16 else 32) = 32)
        (useCell s.sp.code (s.index l.addr + 1))) (restThen t l) () (restThen t l) True := by
      unfold onlyIf
      by_cases hlength : l.encoding.digits.length = 4
      · rw [if_pos hlength, if_neg (by decide)]
        exact .pure _ _
      · rw [if_neg hlength, if_pos rfl]
        exact hcell _ _ _
    exact (diss_reads t l).last
      ((hcell _ _ _).step (hhigh.step
        ((hcell _ _ _).step ((hcell _ _ _).step ((hcell _ _ _).step (.pure _ _))))))
  have hfits : l.address.digits.length < 1024 ∧ l.text.length < 1024 ↔ l.Fits :=
    ⟨fun h => ⟨h.1, h.2⟩, fun h => ⟨h.number, h.text⟩⟩
  have hread : Leads eol s ((ListingLine.inst l).textThen t) false
      (s.disassembled l.addr (if l.encoding.digits.length = 4 then 16 else 32) l.value l.text)
        (restThen t l)
      (ListingLine.inst l).Fits :=
    (line (blanks_lex_word 1024 hindent (name_digits le_rfl l.address) (by rintro c ⟨⟩; rfl))
      (numberLine_some (isStringAHexNumber_numeral l.address) hline)).congr hfits
  unfold restThen at hread
  by_cases htext : l.text = []
  · rw [if_pos htext] at hread
    rwa [decide_eq_false (not_not.mpr htext)]
  · rw [if_neg htext] at hread
    rw [decide_eq_true htext]
    exact (hread.trans (.newline false _ t)).congr (and_iff_left trivial)

end Leads

theorem ends_table {w : List Char} (hplain : ∀ c ∈ w, endsString c = false ∧ c ≠ '\x00')
    (ht : ∀ c ∈ t.head?, endsString c = true)
    (htable : strcasecmp "disassembly".toList w = true ∨ strcasecmp "symbol".toList w = true) :
    Ends true s (w ++ t) s (.string, w) t True := by
  have hlength : w.length = 11 ∨ w.length = 6 := by
    rcases htable with h | h
    · have hlength := congrArg List.length (eq_of_beq h)
      rw [List.length_map, List.length_map] at hlength
      exact .inl hlength.symm
    · have hlength := congrArg List.length (eq_of_beq h)
      rw [List.length_map, List.length_map] at hlength
      exact .inr hlength.symm
  have hname : Name w := ⟨fun h => by rw [h] at hlength; exact hlength.elim nofun nofun, hplain⟩
  have hdots : w ≠ "...".toList := fun h => by
    rw [h] at hlength
    exact absurd hlength (by decide)
  have hnumber : isStringAHexNumber w = none := by
    rcases htable with h | h
    · exact not_number_of_table (by decide) h (by decide)
    · exact not_number_of_table (by decide) h (by decide)
  have hline : Reads (listingLine s true w) t none t True := by
    rw [listingLine, if_neg hdots, hnumber]
    dsimp only
    rw [if_pos ⟨rfl, htable⟩]
    exact .pure _ _
  have hshort : w.length < 1024 ↔ True := iff_of_true (by omega) trivial
  have hcopy : (Note.copy 256 w).Fits ↔ True := iff_of_true (show w.length < 256 by omega) trivial
  refine ⟨1, fun j k hj hk => ?_⟩
  obtain ⟨j, rfl⟩ : ∃ i, j = i + 1 := ⟨j - 1, by omega⟩
  have hskip : skipEols 1024 (j + 1) true (.string, w) = pure (true, .string, w) := if_neg nofun
  refine ((lex_word 1024 hname ht).congr hshort).step ?_
  rw [hskip]
  exact hline.step (((Reads.write _ t).congr hcopy).step (.pure _ t))

/-- A listing that can be read is entered line by line. -/
theorem leads_listing (rest : List Char) {eol : Bool} {lines : List ListingLine}
    (h : Legible eol lines) (s : Listing) :
    ∃ eol', Leads eol s (listingText rest lines) eol' (lines.foldl Listing.enter s) rest
      (∀ l ∈ lines, l.Fits) := by
  induction lines generalizing eol s with
  | nil => exact ⟨eol, (Leads.refl eol s rest).congr (iff_of_true trivial nofun)⟩
  | cons line lines ih =>
    have hcons {eol₁ : Bool} {s₁ : Listing} {P : Prop} (hP : P ↔ line.Fits)
        (hread : Legible eol₁ lines) (hline : Leads eol s (listingText rest (line :: lines)) eol₁ s₁
          (listingText rest lines) P) :
        ∃ eol', Leads eol s (listingText rest (line :: lines)) eol' (lines.foldl Listing.enter s₁)
          rest (∀ l ∈ line :: lines, l.Fits) := by
      obtain ⟨eol', hlines⟩ := ih hread s₁
      exact ⟨eol', (hline.trans hlines).congr (by rw [List.forall_mem_cons, hP])⟩
    cases line with
    | blank => exact hcons Iff.rfl h (.newline eol s _)
    | label address name => exact hcons Iff.rfl h.2 (.label h.1)
    | func name => exact hcons Iff.rfl h.2 (.func h.1)
    | dots indent => exact hcons Iff.rfl h.2 (.dots h.1)
    | source l => exact hcons Iff.rfl h.2 (.source h.1)
    | inst l => exact hcons Iff.rfl h (.inst l)

theorem ends_listing (tail : Tail) {eol : Bool} {lines : List ListingLine} (h : Legible eol lines)
    (s : Listing) :
    Ends eol s (listingText tail.text lines) (lines.foldl Listing.enter s) tail.token tail.rest
      (∀ l ∈ lines, l.Fits) := by
  obtain ⟨eol', hlines⟩ := leads_listing tail.text h s
  cases tail with
  | eof => exact (hlines.ends (ends_eof eol' _)).congr (and_iff_left trivial)
  | table word rest plain ends isTable =>
    exact (hlines.ends ((Leads.newline eol' _ _).ends (ends_table plain ends isTable))).congr
      ((and_congr_right fun _ => and_iff_left trivial).trans (and_iff_left trivial))

end Parser

end ObjDump

end TraceDecoder
