import TraceDecoder.ObjDumpOutputHead

/-!
# Reading the symbols of the output

The parse of the flags and of the name of each symbol, and from that of the whole table.
-/

namespace TraceDecoder

open CString Dialogue

namespace ObjDump

namespace Parser

theorem addFlags_known {groups : List (List (Char × BitVec 32))} {columns : List (List Char)}
    {flags : List Char} (v : BitVec 32)
    (hgroups : List.Forall₂ (fun column group => ∀ c ∈ column, ∃ flag, group.lookup c = some flag)
      columns groups)
    (hflags : List.Forall₂ (fun c column => c ∈ column) flags columns) :
    flags.length = columns.length ∧ ∃ v', addFlags groups flags v = (.ok, v') := by
  induction hgroups generalizing flags v with
  | nil =>
    cases hflags
    exact ⟨rfl, v, rfl⟩
  | cons hgroup _ ih =>
    cases hflags with
    | cons hc hflags =>
      obtain ⟨flag, hflag⟩ := hgroup _ hc
      obtain ⟨hlength, v', hrest⟩ := ih (v ||| flag) hflags
      refine ⟨congrArg (· + 1) hlength, v', ?_⟩
      rw [addFlags, hflag]
      exact hrest

theorem symGroups_known :
    List.Forall₂ (fun column group => ∀ c ∈ column, ∃ flag, group.lookup c = some flag) flagColumns
      symGroups := by
  have hsome {column : List Char} {group : List (Char × BitVec 32)} (h : ∀ c ∈ column,
      (group.lookup c).isSome = true) : ∀ c ∈ column, ∃ flag, group.lookup c = some flag :=
        fun c hc => Option.isSome_iff_exists.mp (h c hc)
  exact .cons (hsome (by decide))
    (.cons (hsome (by decide))
      (.cons (hsome (by decide))
      (.cons (hsome (by decide))
      (.cons (hsome (by decide)) (.cons (hsome (by decide)) (.cons (hsome (by decide)) .nil))))))

theorem reads_parseFixedField {flags : List Char}
    (h : List.Forall₂ (fun c column => c ∈ column) flags flagColumns)
    (t : List Char) : ∃ v, Reads parseFixedField (' ' :: (flags ++ t)) v t True := by
  obtain ⟨hlength, v, hflags⟩ := addFlags_known 0 symGroups_known h
  have hlength : flags.length = 7 := hlength
  have hfield : Text.fixedField (' ' :: (flags ++ t)) = ((.ok, v), t) := by
    have hlong : ¬ (flags ++ t).length < 7 := by
      rw [List.length_append]
      omega
    rw [Text.fixedField, if_neg (by decide), if_neg hlong, ← hlength, List.take_left,
      List.drop_left, hflags]
  refine ⟨v, ?_, ?_⟩
  · change (if (Text.fixedField _).1.1 = .ok then Dialogue.done (Text.fixedField _).1.2
      else .fail Fault.err).run Text.answer (Text.fixedField _).2 = _
    rw [hfield]
    rfl
  · change (∀ w ∈ (if (Text.fixedField _).1.1 = .ok then Dialogue.done (Text.fixedField _).1.2
      else .fail Fault.err).notes Text.answer (Text.fixedField _).2, _) ↔ _
    rw [hfield]
    exact iff_of_true nofun trivial

def parsedName : SymbolName → Option (List Char)
  | .none _ _ => none
  | .one _ name _ => some name
  | .two _ _ _ name _ => some name
  | .path _ drive file _ => some (drive ++ ':' :: file)

def nameOf (secName : List Char) (symFlags : BitVec 32) (symSize : BitVec 64) :
    Parser (List Char × Option (List Char) × BitVec 32 × BitVec 64) := do
  let (type, symName) ← getNextLex 256
  match type with
  | .eol => pure (secName, none, symFlags, symSize)
  | .string => do
    let symName ← symbolName symName
    pure (secName, some symName, symFlags, symSize)
  | _ => err

theorem reads_nameOf (secName rest : List Char) (symFlags : BitVec 32) (symSize : BitVec 64)
    (name : SymbolName) :
    Reads (nameOf secName symFlags symSize) (name.textThen rest)
      (secName, parsedName name, symFlags, symSize) rest name.Fits := by
  have hzero : 0 < 256 := by decide
  have hlex (t : List Char) : Reads (getNextLex 256) ('\n' :: t) (.eol, []) t True :=
    lex_char 256 hzero rfl rfl
  have heol (t : List Char) : Reads (expect 256 .eol) ('\n' :: t) [] t True :=
    expect_char 256 hzero rfl rfl
  cases name with
  | none blanks blank =>
    have hblanks : Reads (getNextLex 256) (blanks ++ '\n' :: rest) (.eol, []) rest True :=
      blanks_lex_char 256 hzero blank rfl rfl
    exact hblanks.step (.pure _ rest)
  | one gap name plain =>
    have hname : Reads (symbolName name) ('\n' :: rest) name rest True :=
      (hlex rest).step (.pure name rest)
    exact (blanks_lex_word 256 gap.blank plain (ends_of_char rfl _)).last
      (hname.step (.pure _ rest))
  | two gap visibility gap' name plain =>
    have hname : Reads (symbolName visibility) (gap'.chars ++ (name ++ '\n' :: rest)) name rest
        (name.length < 256) :=
      ((blanks_lex_word 256 gap'.blank plain.2 (ends_of_char rfl _)).bind
        ((Reads.write (.copy 256 name) _).last ((heol rest).step (.pure name rest)))).congr
          (and_self_iff)
    exact (blanks_lex_word 256 gap.blank plain.1 (ends_of_gap _ _)).bind (hname.last (.pure _ rest))
  | path gap drive file plain =>
    have hcolon (t : List Char) : Reads (getNextLex 256) (':' :: t) (.colon, []) t True :=
      lex_char 256 hzero rfl rfl
    have hname : Reads (symbolName drive) (':' :: (file ++ '\n' :: rest)) (drive ++ ':' :: file)
        rest (file.length < 256 ∧ (drive ++ [':']).length < 256 ∧ (drive ++ ':' :: file).length <
          256) :=
      (hcolon _).step ((expect_word 256 plain.2 (ends_of_char rfl _)).bind
        ((Reads.write (.join 256 (drive ++ [':'])) _).bind
          ((Reads.write (.join 256 (drive ++ ':' :: file)) _).last
          ((heol rest).step (.pure _ rest)))))
    have hfits : drive.length < 256 ∧ file.length < 256 ∧ (drive ++ [':']).length < 256 ∧
        (drive ++ ':' :: file).length < 256 ↔ (SymbolName.path gap drive file plain).Fits := by
      refine ⟨fun h => h.2.2.2, fun h => ?_⟩
      have hlength : drive.length + (file.length + 1) < 256 := by
        rw [SymbolName.Fits, List.length_append, List.length_cons] at h
        exact h
      refine ⟨by omega, by omega, ?_, h⟩
      rw [List.length_append, List.length_singleton]
      omega
    have hpure : Reads (pure (secName, some (drive ++ ':' :: file), symFlags, symSize)) rest
        (secName, some (drive ++ ':' :: file), symFlags, symSize) rest True := .pure _ rest
    refine Reads.congr ((blanks_lex_word 256 gap.blank plain.1 (ends_of_char rfl _)).bind ?_) hfits
    exact hname.last hpure

theorem reads_parseSymbol (s : SymbolEntry) (rest : List Char) : ∃ symFlags,
    Reads parseSymbol
      (' ' :: (s.flags ++ (s.gap.chars ++ (s.sectionName ++ (s.sizeGap.chars ++ (s.size.digits ++
      s.name.textThen rest)))))) (s.sectionName, parsedName s.name, symFlags, BitVec.ofNat 64 s.size.value) rest
      (s.sectionName.length < 256 ∧ s.size.digits.length < 256 ∧ s.name.Fits) := by
  obtain ⟨v, hflags⟩ := reads_parseFixedField s.known (s.gap.chars ++ (s.sectionName ++ (s.sizeGap.chars ++ (s.size.digits ++
    s.name.textThen rest))))
  have hends : ∀ c ∈ (s.name.textThen rest).head?, endsString c = true := by
    cases s.name with
    | none blanks blank =>
      cases blanks with
      | nil => exact ends_of_char rfl _
      | cons c blanks => exact ends_of_gap ⟨c :: blanks, List.cons_ne_nil c blanks, blank⟩ ('\n' :: rest)
    | one gap name plain => exact ends_of_gap gap _
    | two gap visibility gap' name plain => exact ends_of_gap gap _
    | path gap drive file plain => exact ends_of_gap gap _
  exact ⟨v, hflags.step ((blanks_expect_word 256 s.gap.blank s.plain (ends_of_gap _ _)).bind
    ((blanks_hexNumber 256 s.size s.sizeGap.blank hends).bind (reads_nameOf s.sectionName rest v
      _ s.name)))⟩

/-- A number in the hexadecimal system is not the word "no". -/
theorem not_no_of_number (n : Numeral 16) : strcasecmp "no".toList n.digits = false := by
  rw [Bool.eq_false_iff]
  intro h
  have heq : ['n', 'o'] = n.digits.map Char.toLower := eq_of_beq h
  have hn : 'n' ∈ n.digits.map Char.toLower := heq ▸ List.mem_cons_self
  obtain ⟨c, hc, hlower⟩ := List.mem_map.mp hn
  exact absurd hlower ((show ∀ c ∈ "0123456789abcdefABCDEF".toList, c.toLower ≠ 'n' by decide) c
    (hexDigit_mem (n.isDigit c hc)))

theorem tableWord_disassembly : TableWord "Disassembly".toList :=
  ⟨⟨by decide, by decide⟩, by decide, by decide⟩

theorem tableWord_symbol : TableWord "SYMBOL".toList :=
  ⟨⟨by decide, by decide⟩, by decide, by decide⟩

variable {lst : List Section} {vmaOffset : ADDRESS}

def symbolsFrom (lst : List Section) (vmaOffset : ADDRESS) (s : SymTable) (v : BitVec 32)
    (x : SymbolEntry) (k : ℕ) : Parser (List Sym × ObjDumpTokenType × List Char) :=
  match parsedName x.name with
  | some symName => Parser.symbols lst vmaOffset k
      (s.add lst vmaOffset (BitVec.ofNat 64 x.address.value) x.sectionName symName v
        (BitVec.ofNat 64 x.size.value))
  | none => Parser.symbols lst vmaOffset k (s.skip v)

theorem reading_symbols (symbols : List SymbolEntry) (after : ℕ) (s : SymTable) {t : List Char}
    (ht : ∀ c ∈ t.head?, endsString c = true) :
    ∃ syms, Reading (fun k => Parser.symbols lst vmaOffset k s)
      (SymbolTable.entriesText (emptyLines after ("Disassembly".toList ++ t)) symbols)
      (syms, .string, "Disassembly".toList) t (∀ x ∈ symbols, x.Fits) := by
  have hzero : 0 < 256 := by decide
  have hstring : ¬ ObjDumpTokenType.string ≠ .string := fun h => h rfl
  induction symbols generalizing s with
  | nil =>
    have hword := tableWord_disassembly
    have hno : ¬ strcasecmp "no".toList "Disassembly".toList = true := by decide
    have hhex : isStringAHexNumber "Disassembly".toList = none := by decide
    refine ⟨s.syms, .succ (Reading.congr
      (reading_eols ((lex_word 256 hword.toName ht).fits hword.short) nofun hzero after false
        fun eol => .ite_neg hstring (.ite_neg hno ?_)) ((and_iff_right trivial).trans
        (iff_of_true trivial nofun)))⟩
    rw [hhex]
    exact .of_reads (((Reads.write (.copy 256 "Disassembly".toList) t).fits hword.short).step
      (.pure (s.syms, ObjDumpTokenType.string, "Disassembly".toList) t))
  | cons x symbols ih =>
    have hno : ¬ strcasecmp "no".toList x.address.digits = true := by
      rw [not_no_of_number]
      exact nofun
    obtain ⟨v, hsymbol⟩ :=
      reads_parseSymbol x (SymbolTable.entriesText (emptyLines after ("Disassembly".toList ++ t))
        symbols)
    have hfits : x.address.digits.length < 256 ∧
        (x.sectionName.length < 256 ∧ x.size.digits.length < 256 ∧ x.name.Fits) ∧
          (∀ y ∈ symbols, y.Fits) ↔ ∀ y ∈ x :: symbols, y.Fits := by
      rw [List.forall_mem_cons]
      exact ⟨fun ⟨h₁, ⟨h₂, h₃, h₄⟩, h⟩ => ⟨⟨h₁, h₂, h₃, h₄⟩, h⟩, fun ⟨⟨h₁, h₂, h₃, h₄⟩, h⟩ =>
        ⟨h₁, ⟨h₂, h₃, h₄⟩, h⟩⟩
    have haddress :=
      @lex_word x.address.digits
        (' ' :: (x.flags ++ (x.gap.chars ++ (x.sectionName ++ (x.sizeGap.chars ++
      (x.size.digits ++ x.name.textThen
        (SymbolTable.entriesText (emptyLines after ("Disassembly".toList ++ t)) symbols)))))))
      256 (name_digits le_rfl x.address) (ends_of_char rfl _)
    obtain ⟨syms, hsyms⟩ : ∃ syms, Reading (fun k => symbolsFrom lst vmaOffset s v x k)
        (SymbolTable.entriesText (emptyLines after ("Disassembly".toList ++ t)) symbols)
        (syms, .string, "Disassembly".toList) t (∀ y ∈ symbols, y.Fits) := by
      unfold symbolsFrom
      cases parsedName x.name with
      | some symName => exact ih _
      | none => exact ih _
    refine ⟨syms, .succ (Reading.congr (reading_eols haddress nofun hzero x.before false fun eol =>
      .ite_neg hstring (.ite_neg hno ?_)) hfits)⟩
    rw [isStringAHexNumber_numeral]
    unfold symbolsFrom at hsyms
    exact hsymbol.before hsyms

theorem reading_parseSymbolTable (gap : Gap) (table : SymbolTable) (syms : List Sym) {t : List Char}
    (ht : ∀ c ∈ t.head?, endsString c = true) :
    ∃ syms', Reading (fun k => parseSymbolTable k syms lst vmaOffset)
      (gap.chars ++ ("TABLE".toList ++ ':' :: '\n' :: table.textThen ("Disassembly".toList ++ t)))
      (syms', .string, "Disassembly".toList) t table.Fits := by
  have hzero : 0 < 256 := by decide
  have htable : Name "TABLE".toList ∧ "TABLE".toList.length < 256 :=
    ⟨⟨by decide, by decide⟩, by decide⟩
  have hcase : strcasecmp "table".toList "TABLE".toList = true := by decide
  have heol (t : List Char) : Reads (expect 256 .eol) ('\n' :: t) [] t True :=
    expect_char 256 hzero rfl rfl
  have hkeyword (t : List Char) : Reads (keyword 256 "table".toList)
      (gap.chars ++ ("TABLE".toList ++ ':' :: t)) () (':' :: t) True := by
    refine ((blanks_expect_word 256 gap.blank htable.1 (ends_of_char rfl t)).fits htable.2).step ?_
    rw [if_pos hcase]
    exact .pure () _
  obtain ⟨syms', hread⟩ : ∃ syms',
      Reading (fun k => Parser.symbols lst vmaOffset k { syms := syms })
        (table.textThen ("Disassembly".toList ++ t)) (syms', .string, "Disassembly".toList) t
        table.Fits := by
    cases table with
    | entries symbols after => exact reading_symbols symbols after _ ht
    | noSymbols gap after =>
      have hno : Name "no".toList ∧ "no".toList.length < 256 := ⟨⟨by decide, by decide⟩, by decide⟩
      have hsymbols : Name "symbols".toList ∧ "symbols".toList.length < 256 :=
        ⟨⟨by decide, by decide⟩, by decide⟩
      have hword := tableWord_disassembly
      have hstring : ¬ ObjDumpTokenType.string ≠ .string := fun h => h rfl
      have hnoCase : strcasecmp "no".toList "no".toList = true := by decide
      have hnoLex :=
        (@lex_word "no".toList (gap.chars ++ ("symbols".toList ++ '\n' :: emptyLines after
          ("Disassembly".toList ++ t)))
        256 hno.1 (ends_of_gap _ _)).fits hno.2
      have hlast := (@lex_word "Disassembly".toList t 256 hword.toName ht).fits hword.short
      refine ⟨syms, .succ (Reading.congr (reading_eols hnoLex nofun hzero 0 false fun eol =>
        .ite_neg hstring (.ite_pos hnoCase ?_)) (and_iff_right trivial))⟩
      refine ((blanks_keyword 256 gap.blank hsymbols.1 (ends_of_char rfl _)).fits
        hsymbols.2).andThen ?_
      exact (reading_eols hlast nofun hzero (after + 1) false fun eol =>
        .of_reads (.pure (syms, ObjDumpTokenType.string, "Disassembly".toList) t)).congr
          (and_iff_left trivial)
  exact ⟨syms', (hkeyword _).andThen ((expect_char 256 hzero rfl rfl).andThen
    ((heol _).andThen hread))⟩

end Parser

end ObjDump

end TraceDecoder
