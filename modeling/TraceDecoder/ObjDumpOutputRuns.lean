import TraceDecoder.ObjDumpBuffers
import TraceDecoder.ObjDumpOutputSymbols

/-!
# The parse of the output of objdump

For which outputs everything fits in the arrays of the parser, and for which outputs that are cut
off in a line of the last listing it returns.
-/

namespace TraceDecoder

open CString Dialogue

namespace ObjDump

namespace Parser

/-! ### The listings -/

theorem names_update (sp : Section) (lst : List Section) : (sp.update lst).map Section.name =
    lst.map Section.name := by
  induction lst with
  | nil => rfl
  | cons sp' lst ih =>
    rw [Section.update]
    by_cases h : sp'.name = sp.name
    · rw [if_pos h, List.map_cons, List.map_cons, h]
    · rw [if_neg h, List.map_cons, List.map_cons, ih]

theorem getSectionByName_of_mem {key : List Char} {lst : List Section}
    (h : key ∈ lst.map Section.name) :
    ∃ sp, Section.getSectionByName key lst = some sp := by
  obtain ⟨sp, hsp, hname⟩ := List.mem_map.mp h
  exact Option.isSome_iff_exists.mp (List.find?_isSome.mpr ⟨sp, hsp, decide_eq_true hname⟩)

variable {wide : Bool} {vmaOffset startAddr endAddr : ADDRESS}

theorem sectionKey_formatType (name : List Char) :
    sectionKey (formatType wide) startAddr name = name := by
  cases wide <;> rfl

theorem formatType_ne : formatType wide ≠ .unknown := by
  cases wide <;> exact nofun

theorem reading_disassembly (d : Disassembly) {lst : List Section}
    (hname : d.name ∈ lst.map Section.name) (root : SrcFileRoot)
    (tail : Tail) : ∃ lst' root', lst'.map Section.name = lst.map Section.name ∧
      Reading (fun k => parseDisassemblyList k (formatType wide) lst root startAddr)
        (d.textThen tail.text) (lst', root', tail.token) tail.rest d.Fits := by
  obtain ⟨sp, hsp⟩ := getSectionByName_of_mem hname
  have hfound : Section.getSectionByName (sectionKey (formatType wide) startAddr d.name) lst =
      some sp := by
    rw [sectionKey_formatType, hsp]
  obtain ⟨n, hn⟩ := @parse_listing (formatType wide) lst root startAddr d.name sp d.plain
    formatType_ne hfound d.lines d.legible tail
  exact ⟨_, _, names_update _ _, n, fun k hk => (hn k hk).congr ⟨fun h => ⟨h.1, h.2⟩, fun h =>
    ⟨h.name, h.lines⟩⟩⟩

theorem isTable_disassembly : strcasecmp "disassembly".toList "Disassembly".toList = true := by
  decide

def tailListing (t : List Char) (ht : ∀ c ∈ t.head?, endsString c = true) : Tail :=
  .table "Disassembly".toList t (by decide) ht (.inl isTable_disassembly)

theorem ends_disassemblyText (name t : List Char) :
    ∀ c ∈ (disassemblyText name t).head?, endsString c = true :=
  ends_of_char (c := ' ') rfl _

theorem ends_allText (rest : List Char) (d : Disassembly) (more : List Disassembly) :
    ∀ c ∈ (Disassembly.allText rest d more).head?, endsString c = true := by
  cases more with
  | nil => exact ends_disassemblyText _ _
  | cons d' more => exact ends_disassemblyText _ _

theorem reading_tables (d : Disassembly) (more : List Disassembly) (e : ElfData)
    (hlisted : ∀ d' ∈ d :: more, d'.name ∈ e.codeSectionLst.map Section.name) :
    ∃ e', Reading (fun k => tables (formatType wide) vmaOffset startAddr k e
        (.string, "Disassembly".toList))
      (Disassembly.allText [] d more) (e', .eof) [] (∀ d' ∈ d :: more, d'.Fits) := by
  have hstring : ¬ ObjDumpTokenType.string ≠ .string := fun h => h rfl
  have heof : ObjDumpTokenType.eof ≠ .string := nofun
  induction more generalizing d e with
  | nil =>
    obtain ⟨lst, root, -, hread⟩ :=
      @reading_disassembly wide (vmaOffset + startAddr) d _ (hlisted d List.mem_cons_self)
        e.srcFileRoot .eof
    have hend : Reading (fun k => tables (formatType wide) vmaOffset startAddr k
        { e with codeSectionLst := lst, srcFileRoot := root } (.eof, [])) []
          ({ e with codeSectionLst := lst, srcFileRoot := root }, .eof) [] True :=
      .succ (.ite_pos heof (.of_reads (.pure ({ e with codeSectionLst := lst, srcFileRoot := root },
        ObjDumpTokenType.eof) [])))
    exact ⟨_, Reading.congr
      (.succ (.ite_neg hstring (.ite_pos isTable_disassembly (hread.last hend))))
        List.forall_mem_singleton.symm⟩
  | cons d' more ih =>
    obtain ⟨hd, hmore⟩ := List.forall_mem_cons.mp hlisted
    obtain ⟨lst, root, hnames, hread⟩ :=
      @reading_disassembly wide (vmaOffset + startAddr) d _ hd e.srcFileRoot
        (tailListing (Disassembly.allText [] d' more) (ends_allText _ _ _))
    obtain ⟨e', hrest⟩ :=
      ih d' { e with codeSectionLst := lst, srcFileRoot := root } (by rw [hnames]; exact hmore)
    refine ⟨e', Reading.congr
      (.succ (.ite_neg hstring (.ite_pos isTable_disassembly (hread.bind hrest)))) ?_⟩
    rw [@List.forall_mem_cons _ _ d]

/-! ### What is in front of the listings -/

variable {α β : Type} {t t' t'' u : List Char} {P Q : Prop}

/-- With enough fuel the first program goes on as the second, with all but some of its fuel. -/
def Going (d : ℕ → Parser α) (t : List Char) (d' : ℕ → Parser α) (t' : List Char) (fits : Prop) :
    Prop :=
  ∃ n, ∀ m k, m + n ≤ k → ∃ k', m ≤ k' ∧ Goes (d k) t (d' k') t' fits

namespace Going

variable {d d' d'' : ℕ → Parser α} {a : α}

theorem refl (d : ℕ → Parser α) (t : List Char) : Going d t d t True :=
  ⟨0, fun _ k hk => ⟨k, hk, .refl (d k) t⟩⟩

theorem trans (h : Going d t d' t' P) (h' : Going d' t' d'' t'' Q) : Going d t d'' t'' (P ∧ Q) := by
  obtain ⟨n, hn⟩ := h
  obtain ⟨n', hn'⟩ := h'
  refine ⟨n' + n, fun m k hk => ?_⟩
  obtain ⟨k₁, hk₁, hgoes⟩ := hn (m + n') k (by omega)
  obtain ⟨k', hk', hgoes'⟩ := hn' m k₁ hk₁
  exact ⟨k', hk', hgoes.trans hgoes'⟩

theorem congr (h : Going d t d' t' P) (hiff : P ↔ Q) : Going d t d' t' Q := by
  obtain ⟨n, hn⟩ := h
  refine ⟨n, fun m k hk => ?_⟩
  obtain ⟨k', hk', hgoes⟩ := hn m k hk
  exact ⟨k', hk', hgoes.congr hiff⟩

theorem succ (h : Going (fun k => d (k + 1)) t d' t' P) : Going d t d' t' P := by
  obtain ⟨n, hn⟩ := h
  refine ⟨n + 1, fun m k hk => ?_⟩
  obtain ⟨k, rfl⟩ : ∃ i, k = i + 1 := ⟨k - 1, by omega⟩
  exact hn m k (by omega)

theorem bind (h : Going d t d' t' P) (f : α → Parser β) :
    Going (fun k => d k >>= f) t (fun k => d' k >>= f) t' P := by
  obtain ⟨n, hn⟩ := h
  refine ⟨n, fun m k hk => ?_⟩
  obtain ⟨k', hk', hgoes⟩ := hn m k hk
  exact ⟨k', hk', hgoes.bind f⟩

theorem suffix (h : Going d t d' t' P) : t' <:+ t := by
  obtain ⟨n, hn⟩ := h
  obtain ⟨k', -, hgoes⟩ := hn 0 n (by omega)
  exact hgoes.suffix

theorem reading (h : Going d t d' t' P) (h' : Reading d' t' a u Q) : Reading d t a u (P ∧ Q) := by
  obtain ⟨n, hn⟩ := h
  obtain ⟨n', hn'⟩ := h'
  refine ⟨n' + n, fun k hk => ?_⟩
  obtain ⟨k', hk', hgoes⟩ := hn n' k hk
  exact hgoes.reads (hn' k' hk')

theorem ite_pos {c : Prop} [Decidable c] {e : ℕ → Parser α} (hc : c) (h : Going d t d' t' P) :
    Going (fun k => if c then d k else e k) t d' t' P := by
  simpa only [if_pos hc] using h

theorem ite_neg {c : Prop} [Decidable c] {e : ℕ → Parser α} (hc : ¬ c) (h : Going d t d' t' P) :
    Going (fun k => if c then e k else d k) t d' t' P := by
  simpa only [if_neg hc] using h

end Going

theorem Reading.going {d : ℕ → Parser α} {f : ℕ → α → Parser β} {a : α} (h : Reading d t a u P) :
    Going (fun k => d k >>= f k) t (fun k => f k a) u P := by
  obtain ⟨n, hn⟩ := h
  exact ⟨n, fun m k hk => ⟨k, by omega, (hn k (by omega)).goes (f k)⟩⟩

def finish (e : ElfData) (x : ElfData × ObjDumpTokenType) : Parser ElfData :=
  if x.2 = .eof then pure { x.1 with codeSectionLst := x.1.codeSectionLst ++ e.codeSectionLst }
    else err

theorem Reading.goingOn {d : ℕ → Parser α} {f : ℕ → α → Parser β} {d' : ℕ → Parser β} {a : α}
    (h : Reading d t a u True)
    (h' : Going (fun k => f k a) u d' t' P) : Going (fun k => d k >>= f k) t d' t' P :=
  (h.going.trans h').congr (and_iff_right trivial)

def symbolsWord : Option (Gap × SymbolTable) → List Char
  | none => "Disassembly".toList
  | some _ => "SYMBOL".toList

def symbolsRest (t : List Char) : Option (Gap × SymbolTable) → List Char
  | none => t
  | some (gap, table) =>
    gap.chars ++ ("TABLE".toList ++ ':' :: '\n' :: table.textThen ("Disassembly".toList ++ t))

theorem symbolsText_eq (t : List Char) (symbols : Option (Gap × SymbolTable)) :
    Output.symbolsText ("Disassembly".toList ++ t) symbols = symbolsWord symbols ++ symbolsRest t
      symbols := by
  cases symbols <;> rfl

theorem tableWord_symbolsWord (symbols : Option (Gap × SymbolTable)) :
    TableWord (symbolsWord symbols) := by
  cases symbols with
  | none => exact tableWord_disassembly
  | some x => exact tableWord_symbol

theorem ends_symbolsRest (ht : ∀ c ∈ t.head?, endsString c = true)
    (symbols : Option (Gap × SymbolTable)) :
    ∀ c ∈ (symbolsRest t symbols).head?, endsString c = true := by
  cases symbols with
  | none => exact ht
  | some x => exact ends_of_gap x.1 _

theorem going_symbols (symbols : Option (Gap × SymbolTable)) (e : ElfData)
    (ht : ∀ c ∈ t.head?, endsString c = true) :
    ∃ e', e'.codeSectionLst = e.codeSectionLst ∧
      Going (fun k => tables (formatType wide) vmaOffset startAddr k e
          (.string, symbolsWord symbols)) (symbolsRest t symbols)
        (fun k => tables (formatType wide) vmaOffset startAddr k e' (.string, "Disassembly".toList))
          t
        (∀ x ∈ symbols, x.2.Fits) := by
  cases symbols with
  | none => exact ⟨e, rfl, (Going.refl _ t).congr (iff_of_true trivial nofun)⟩
  | some x =>
    obtain ⟨gap, table⟩ := x
    have hstring : ¬ ObjDumpTokenType.string ≠ .string := fun h => h rfl
    have hdisassembly : ¬ strcasecmp "disassembly".toList "SYMBOL".toList = true := by decide
    have hsymbol : strcasecmp "symbol".toList "SYMBOL".toList = true := by decide
    obtain ⟨syms, hread⟩ :=
      @reading_parseSymbolTable e.codeSectionLst vmaOffset gap table e.symLst t ht
    refine ⟨{ e with symLst := syms }, rfl, ?_⟩
    have hfits : table.Fits ↔ ∀ x ∈ some (gap, table), x.2.Fits :=
      ⟨fun h x hx => Option.some.inj hx ▸ h, fun h => h _ rfl⟩
    exact Going.congr (.succ
      (.ite_neg hstring (.ite_neg hdisassembly (.ite_pos hsymbol hread.going)))) hfits

variable (o : Output) (e : ElfData)

def HeadFits (o : Output) : Prop :=
  o.file.Fits ∧ (∀ s ∈ o.sections, s.Fits) ∧ ∀ x ∈ o.symbols, x.2.Fits

theorem archType_formatType (archSize : ℕ) : ∃ size, archType archSize (formatType wide) = some
    (formatType wide, size) := by
  cases wide with
  | true => exact ⟨64, rfl⟩
  | false => exact ⟨32, rfl⟩

theorem isBlob_formatType : isBlob (formatType wide) = false := by
  cases wide <;> rfl

/-- The parse comes to the first listing, and knows the sections that are listed. -/
theorem going_output (rest : List Char) :
    ∃ e', (∀ d ∈ o.first :: o.more, d.name ∈ e'.codeSectionLst.map Section.name) ∧
    Going (fun k => parseObjDump k e vmaOffset startAddr endAddr) (o.textThen rest)
      (fun k => tables (formatType o.file.wide) vmaOffset startAddr k e'
      (.string, "Disassembly".toList) >>= finish e)
      (Disassembly.allText rest o.first o.more) (HeadFits o) := by
  obtain ⟨size, harch⟩ := @archType_formatType o.file.wide e.archSize
  have hends := ends_allText rest o.first o.more
  have hword := tableWord_symbolsWord o.symbols
  obtain ⟨lst, hkept, hsections⟩ :=
    @reading_parseSectionList vmaOffset _ _ hword (ends_symbolsRest hends o.symbols) o.sections
      (o.after + 1) o.sectionsAfter o.columns o.columns_words
  obtain ⟨e', he', hsymbols⟩ := @going_symbols o.file.wide vmaOffset startAddr _ o.symbols
    { e with archSize := size, codeSectionLst := lst } hends
  have htext : o.textThen rest = o.file.textThen (emptyLines o.after ("Sections".toList ++ ':' ::
      '\n' :: ("Idx".toList ++
        wordsText ('\n' :: sectionsText (emptyLines o.sectionsAfter (symbolsWord o.symbols ++
        symbolsRest (Disassembly.allText rest o.first o.more) o.symbols)) o.sections)
          o.columns))) := by
    rw [Output.textThen, symbolsText_eq]
  have hskip : Reading (fun k => skipEols 256 k false (.string, symbolsWord o.symbols))
      (symbolsRest (Disassembly.allText rest o.first o.more) o.symbols) (false, .string,
        symbolsWord o.symbols)
      (symbolsRest (Disassembly.allText rest o.first o.more) o.symbols) True :=
    .succ (.ite_neg nofun (.of_reads (.pure (false, ObjDumpTokenType.string, symbolsWord o.symbols)
      _)))
  refine ⟨e', fun d hd => ?_, ?_⟩
  · obtain ⟨s, hs, hsKept, hname⟩ := o.listed d hd
    obtain ⟨sp, hsp, hspName⟩ := hkept s hs hsKept
    rw [he', ← hname, ← hspName]
    exact List.mem_map_of_mem hsp
  · rw [htext]
    refine (reading_parseElfName o.file _).going.trans ?_
    have hblob : ¬ (false = true ∧ vmaOffset ≠ 0) := nofun
    have hnothing (t : List Char) :
        Reads (onlyIf (false = true) (write (.copy 256 ((blobName startAddr).take 255)))) t () t
          True := .pure () t
    simp only [harch, isBlob_formatType]
    refine .ite_neg hblob ((Reading.of_reads (hnothing _)).goingOn
      (hsections.going.trans (hskip.goingOn ?_)))
    exact hsymbols.bind (finish e)

theorem reading_output :
    ∃ e', Reading (fun k => parseObjDump k e vmaOffset startAddr endAddr) o.text e' [] o.Fits := by
  obtain ⟨e₁, hlisted, hgoing⟩ := @going_output vmaOffset startAddr endAddr o e []
  obtain ⟨e₂, hread⟩ := @reading_tables o.file.wide vmaOffset startAddr o.first o.more e₁ hlisted
  have hfinish : Reads (finish e (e₂, .eof)) [] { e₂ with codeSectionLst := e₂.codeSectionLst ++
      e.codeSectionLst } [] True :=
    .pure _ []
  have hfits : HeadFits o ∧ (∀ d ∈ o.first :: o.more, d.Fits) ↔ o.Fits :=
    ⟨fun ⟨⟨h₁, h₂, h₃⟩, h₄⟩ => ⟨h₁, h₂, h₃, h₄⟩, fun ⟨h₁, h₂, h₃, h₄⟩ => ⟨⟨h₁, h₂, h₃⟩, h₄⟩⟩
  exact ⟨_, (hgoing.reading (hread.last (.of_reads hfinish))).congr hfits⟩

theorem output_nothingOverrun_iff {s : ObjDump} (hs : s.Holds o.text) :
    NothingOverrun e vmaOffset startAddr endAddr s ↔ o.Fits := by
  obtain ⟨e', n, hn⟩ := @reading_output vmaOffset startAddr endAddr o e
  constructor
  · exact fun h => (hn n le_rfl).notes.mp ((forall_notes_iff hs _ Note.Fits).mp (h n))
  · intro h fuel
    rw [forall_notes_iff hs]
    -- with less fuel less is written
    intro w hw
    have hmore := more_parseObjDump (Nat.le_max_left fuel n) e vmaOffset startAddr endAddr
    exact (hn (max fuel n) (Nat.le_max_right fuel n)).notes.mpr h w (hmore.notes_subset _ hw)

/-! ### The result -/

/-- **No overrun**: short words and lines overrun nothing; for the outputs of objdump the arrays are
large enough if and only if the texts of the output fit in them. -/
theorem nothingOverrun_iff_fits (stdoutPipe : ℕ) (pipeBuffer t : List Char) (d : Division t)
    (e : ElfData) (vmaOffset startAddr endAddr : ADDRESS) :
    (Narrow t → NothingOverrun e vmaOffset startAddr endAddr
      (init stdoutPipe pipeBuffer (d.chunks.map some))) ∧
      ∀ o : Output, t = o.text →
        (NothingOverrun e vmaOffset startAddr endAddr
          (init stdoutPipe pipeBuffer (d.chunks.map some)) ↔ o.Fits) := by
  refine ⟨fun h => nothingOverrun_of_narrow (holds_init stdoutPipe pipeBuffer d) h e vmaOffset
    startAddr endAddr, ?_⟩
  rintro o rfl
  exact output_nothingOverrun_iff o e (holds_init stdoutPipe pipeBuffer d)

/-! ### An output -/

def space : Gap := ⟨[' '], by decide, by decide⟩

theorem name_text : Name ".text".toList := ⟨by decide, by decide⟩

theorem mainSection_blanks : (∀ c ∈ "  ".toList ++ "  ".toList, IsBlank c) ∧
    ∀ x ∈ [([' '], SectFlag.alloc), ([' '], .readonly), ([' '], .code)], ∀ c ∈ x.1, IsBlank c := by
  decide

theorem zero_ne : "0".toList ≠ [] := by decide

theorem zero_isDigit : ∀ c ∈ "0".toList, IsDigit 10 c := by decide

def zero : Numeral 10 := ⟨"0".toList, zero_ne, zero_isDigit⟩

theorem letter_C : 'C'.isAlpha = true := rfl

def mainSection : SectionEntry where
  indent := "  ".toList
  index := zero
  name := ".text".toList
  size := driveInst.encoding
  vma := driveInst.address
  lma := driveInst.address
  offset := driveInst.address
  align := ⟨1, by omega⟩
  gaps _ := space
  flagIndent := "  ".toList
  flag := .contents
  flags := [([' '], .alloc), ([' '], .readonly), ([' '], .code)]
  plain := name_text
  blanks := mainSection_blanks

theorem names_main : Name ".hidden".toList ∧ Name "main".toList :=
  ⟨⟨by decide, by decide⟩, ⟨by decide, by decide⟩⟩

theorem known_function :
    List.Forall₂ (fun c column => c ∈ column) "g     F".toList flagColumns := by
  unfold flagColumns
  decide

def mainSymbol : SymbolEntry where
  before := 0
  address := driveInst.address
  flags := "g     F".toList
  gap := space
  sectionName := ".text".toList
  sizeGap := space
  size := driveInst.encoding
  name := .two space ".hidden".toList space "main".toList names_main
  known := known_function
  plain := name_text

def mainLines : List ListingLine :=
  [.blank, .label driveInst.address "main".toList, .source (driveSource 'C' letter_C),
    .inst driveInst]

theorem mainLines_legible : Legible true mainLines := by
  have hslash : '/' ∈ "/a.c".toList := by decide
  exact ⟨⟨by decide, by decide⟩, ⟨⟨by decide, by decide⟩, fun _ => ⟨'/', hslash, by decide⟩⟩,
    trivial⟩

theorem mainSection_listed (d : Disassembly) (hname : ".text".toList = d.name) :
    ∀ d' ∈ [d], ∃ s ∈ [mainSection], s.Kept ∧ s.name = d'.name :=
  List.forall_mem_singleton.mpr ⟨mainSection, List.mem_singleton_self _, .inl (by decide), hname⟩

theorem columns_space : (columnWords.map fun w => (space, w)).map Prod.snd = columnWords := by
  decide

theorem driveLetter : ∀ d ∈ some 'C', d.isAlpha = true := by
  rintro d ⟨⟩
  rfl

def mainOutput (name : List Char) (plain : Name name) : Output where
  file := ⟨1, some 'C', name, false, fun _ => space, driveLetter, plain⟩
  after := 1
  columns := columnWords.map fun w => (space, w)
  sections := [mainSection]
  sectionsAfter := 0
  symbols := some (space, .entries [mainSymbol] 2)
  first := ⟨".text".toList, mainLines, name_text, mainLines_legible⟩
  more := []
  columns_words := columns_space
  listed := mainSection_listed _ rfl

theorem mainOutput_fits_iff (name : List Char) (plain : Name name) :
    (mainOutput name plain).Fits ↔ name.length + 2 < 256 := by
  have hsection : mainSection.Fits := by constructor <;> decide
  have hsymbol : mainSymbol.Fits := ⟨by decide, by decide, by decide, by decide, by decide⟩
  have hlines : ∀ l ∈ mainLines, l.Fits := by
    have hsource : (driveSource 'C' letter_C).Fits := ⟨by decide, by decide, nofun⟩
    have hinst : driveInst.Fits := ⟨by decide, by decide⟩
    rintro l hl
    rcases List.mem_cons.mp hl with rfl | hl
    · exact trivial
    rcases List.mem_cons.mp hl with rfl | hl
    · exact ⟨by decide, by decide⟩
    rcases List.mem_cons.mp hl with rfl | hl
    · exact hsource
    · rw [List.mem_singleton.mp hl]
      exact hinst
  refine ⟨fun h => h.file, fun h => ⟨h, List.forall_mem_singleton.mpr hsection, ?_, ?_⟩⟩
  · rintro x ⟨⟩
    exact List.forall_mem_singleton.mpr hsymbol
  · exact List.forall_mem_singleton.mpr ⟨show 5 < 1024 by decide, hlines⟩

theorem name_longPath : Name longPath :=
  ⟨List.cons_ne_nil 'a' _, fun c hc => by rw [List.eq_of_mem_replicate hc]; decide⟩

/-- Short words, a name that fits with its drive, and one that does not. -/
theorem nothingOverrun_iff_fits_main :
    NothingOverrun ⟨0, [], [], ⟨[]⟩⟩ 0 0 0
      (init 0 [] ((Division.single "a: file".toList).chunks.map some)) ∧
    NothingOverrun ⟨0, [], [], ⟨[]⟩⟩ 0 0 0
      (init 0 []
        ((Division.single (mainOutput "a.elf".toList ⟨by decide, by decide⟩).text).chunks.map
        some)) ∧
    ¬ NothingOverrun ⟨0, [], [], ⟨[]⟩⟩ 0 0 0
      (init 0 [] ((Division.single (mainOutput longPath name_longPath).text).chunks.map some)) := by
  have hnarrow : Narrow "a: file".toList :=
    ⟨fun w hw _ => Nat.lt_of_le_of_lt hw.length_le (by decide), fun w hw _ => Nat.lt_of_le_of_lt
      hw.length_le (by decide)⟩
  refine ⟨(nothingOverrun_iff_fits 0 [] _ _ _ 0 0 0).1 hnarrow,
    ((nothingOverrun_iff_fits 0 [] _ _ _ 0 0 0).2 (mainOutput "a.elf".toList ⟨by decide, by decide⟩)
      rfl).mpr ((mainOutput_fits_iff _ _).mpr (by decide)), fun h => ?_⟩
  have hfits :=
    ((nothingOverrun_iff_fits 0 [] _ _ _ 0 0 0).2 (mainOutput longPath name_longPath) rfl).mp h
  have hlength := (mainOutput_fits_iff _ _).mp hfits
  rw [longPath, List.length_replicate] at hlength
  exact absurd hlength (by decide)

end Parser

end ObjDump

end TraceDecoder
