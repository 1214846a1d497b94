import TraceDecoder.ObjDumpProgress

/-!
# The character arrays of the parser for objdump

The parser hands its arrays down and copies from one to another, and puts names together from two
parts. Where the words and the lines of a text are short, no text that is written is too long for
its array.
-/

namespace TraceDecoder

open Dialogue

namespace ObjDump

/-- Two words with a colon between them fit in the smallest array, a line in the largest. -/
structure Narrow (t : List Char) : Prop where
  words : ∀ w, w <:+: t → (∀ c ∈ w, endsString c = false) → w.length < 128
  lines : ∀ w, w <:+: t → '\n' ∉ w → w.length < 1024

theorem Narrow.of_suffix {t t' : List Char} (h : Narrow t) (ht : t' <:+ t) : Narrow t' where
  words w hw := h.words w (hw.trans ht.isInfix)
  lines w hw := h.lines w (hw.trans ht.isInfix)

def Short : (c : Call) → Answer c → Prop
  | .getNextLex, r => r.2.length < 128
  | .getRestOfLine, r => r.2.length < 1024
  | .isWSLookahead, _ => True
  | .parseFixedField, _ => True

namespace Text

variable {t : List Char}

theorem length_taken_le (stop keep : Char → Bool) (t : List Char) :
    (taken stop keep t).length ≤ (t.takeWhile fun c => !stop c).length := List.length_filter_le _ _

theorem nextLex_short (h : Narrow t) : (nextLex t).2.1.length < 128 := by
  rcases nextLex_cases t with ⟨-, hlex⟩ | ⟨c, t', token, -, -, hlex⟩ | ⟨c, t', hws, -, hstop, hlex⟩
  · rw [hlex]
    exact Nat.succ_pos _
  · rw [hlex]
    exact Nat.succ_pos _
  · have hinfix : c :: t'.takeWhile (fun c => !endsString c) <:+: t := by
      refine List.IsInfix.trans ?_ (skipWS_suffix t).isInfix
      rw [hws]
      exact (List.prefix_cons_inj c |>.mpr (List.takeWhile_prefix _)).isInfix
    rw [hlex]
    refine Nat.lt_of_le_of_lt (Nat.succ_le_succ (length_taken_le _ _ t')) (h.words _ hinfix ?_)
    exact List.forall_mem_cons.mpr ⟨hstop, fun d hd => by simpa using List.mem_takeWhile_imp hd⟩

theorem restOfLine_short (h : Narrow t) : (restOfLine t).2.1.length < 1024 := by
  have hsuffix := skipWS_suffix t
  unfold restOfLine
  match hws : skipWS t with
  | [] => exact Nat.succ_pos _
  | c :: t' =>
    rw [hws] at hsuffix
    dsimp only
    by_cases hnewline : c = '\n'
    · rw [if_pos hnewline]
      exact Nat.succ_pos _
    · rw [if_neg hnewline]
      have hinfix := (List.takeWhile_prefix fun c => !(c == '\n')).isInfix.trans hsuffix.isInfix
      refine Nat.lt_of_le_of_lt (length_taken_le _ _ _) (h.lines _ hinfix fun hmem => ?_)
      exact absurd (List.mem_takeWhile_imp hmem) (by decide)

theorem answer_short (c : Call) (t : List Char) (h : Narrow t) :
    Short c (answer c t).1 ∧ Narrow (answer c t).2 := by
  refine ⟨?_, h.of_suffix (answer_suffix c t)⟩
  cases c with
  | getNextLex => exact nextLex_short h
  | getRestOfLine => exact restOfLine_short h
  | isWSLookahead => exact trivial
  | parseFixedField => exact trivial

end Text

namespace Parser

variable {α β : Type}

/-- The program writes no text that is too long, and its result is as `post` says. -/
def Copies (d : Parser α) (post : α → Prop) : Prop := d.Honours Short Note.Fits post

namespace Copies

theorem pure {a : α} {post : α → Prop} (h : post a) : Copies (pure a) post := h

theorem err {post : α → Prop} : Copies err post := trivial

theorem outOfFuel {post : α → Prop} : Copies (.fail .outOfFuel) post := trivial

theorem bind {d : Parser α} {f : α → Parser β} {post : α → Prop} {post' : β → Prop}
    (hd : Copies d post)
    (hf : ∀ a, post a → Copies (f a) post') : Copies (d >>= f) post' := Honours.bind hd hf

theorem ite {c : Prop} [Decidable c] {d d' : Parser α} {post : α → Prop} (hd : c → Copies d post)
    (hd' : ¬ c → Copies d' post) : Copies (if c then d else d') post := Honours.ite hd hd'

theorem write {w : Note} (h : w.Fits) : Copies (write w) fun _ => True := ⟨h, trivial⟩

end Copies

theorem cString_length_le (text : List Char) : (cString text).length ≤ text.length :=
  (List.takeWhile_prefix _).length_le

section

variable {room : ℕ} (hroom : 128 ≤ room)

include hroom

theorem copies_getNextLex : Copies (getNextLex room) fun r => r.2.length < 128 :=
  fun r hr => ⟨Nat.lt_of_lt_of_le hr hroom, Nat.lt_of_le_of_lt (cString_length_le r.2) hr⟩

theorem copies_expect (type : ObjDumpTokenType) :
    Copies (expect room type) fun lex => lex.length < 128 :=
  .bind (copies_getNextLex hroom) fun _ hr => .ite (fun _ => .pure hr) fun _ => .err

theorem copies_keyword (word : List Char) : Copies (keyword room word) fun _ => True :=
  .bind (copies_expect hroom _) fun _ _ => .ite (fun _ => .pure trivial) fun _ => .err

theorem copies_keywords (words : List (List Char)) :
    Copies (keywords room words) fun _ => True := by
  induction words with
  | nil => exact .pure trivial
  | cons word words ih => exact .bind (copies_keyword hroom word) fun _ _ => ih

theorem copies_hexNumber : Copies (hexNumber room) fun _ => True :=
  .bind (copies_expect hroom _) fun lex _ => by
    cases isStringAHexNumber lex with
    | some => exact .pure trivial
    | none => exact .err

theorem copies_decNumber : Copies (decNumber room) fun _ => True :=
  .bind (copies_expect hroom _) fun lex _ => by
    cases isStringADecNumber lex with
    | some => exact .pure trivial
    | none => exact .err

theorem copies_skipEols (n : ℕ) (eol : Bool) {r : ObjDumpTokenType × List Char}
    (hr : r.2.length < 128) :
    Copies (skipEols room n eol r) fun r => r.2.2.length < 128 := by
  induction n generalizing eol r with
  | zero => exact .outOfFuel
  | succ n ih => exact .ite (fun _ => .bind (copies_getNextLex hroom) fun r hr => ih true hr) fun _ => .pure hr

/-! ### The file name and the sections -/

theorem copies_scanName (n : ℕ) : Copies (scanName room n) fun lex => lex.length < 128 := by
  induction n with
  | zero => exact .outOfFuel
  | succ n ih =>
    refine .bind (copies_getNextLex hroom) fun r hr => ?_
    split
    · exact ih
    · exact .pure hr
    · exact .err

end

theorem copies_getRestOfLine : Copies (getRestOfLine 1024) fun _ => True :=
  fun _ hr => ⟨hr, trivial⟩

theorem copies_isWSLookahead : Copies isWSLookahead fun _ => True := fun _ _ => trivial

theorem copies_parseFixedField : Copies parseFixedField fun _ => True :=
  fun _ _ => Copies.ite (fun _ => .pure trivial) fun _ => .err

theorem room_256 : 128 ≤ 256 := by decide

theorem room_1024 : 128 ≤ 1024 := by decide

theorem copies_copy {text : List Char} {room : ℕ} (hroom : 128 ≤ room) (h : text.length < 128) :
    Copies (write (.copy room text)) fun _ => True := .write (Nat.lt_of_lt_of_le h hroom)

theorem copies_join {front text : List Char} {room : ℕ} (hroom : 256 ≤ room)
    (hfront : front.length < 128) (htext : text.length < 128) :
    Copies (write (.join room (front ++ [':']))) (fun _ => True) ∧
      Copies (write (.join room (front ++ ':' :: text))) fun _ => True := by
  refine ⟨.write ?_, .write ?_⟩
  · rw [Note.Fits, List.length_append, List.length_singleton]
    omega
  · rw [Note.Fits, List.length_append, List.length_cons]
    omega

theorem copies_drivePath (fuel : ℕ) {elfName : List Char} (h : elfName.length < 128) :
    Copies (drivePath fuel elfName) fun _ => True := by
  refine .bind (copies_scanName room_256 fuel) fun lex hlex => ?_
  obtain ⟨hfront, hall⟩ := copies_join le_rfl h hlex
  exact .bind hfront fun _ _ => .bind hall fun _ _ => .bind (copies_expect room_256 _) fun _ _ =>
    .pure trivial

theorem copies_parseElfName (fuel : ℕ) : Copies (parseElfName fuel) fun _ => True := by
  have hpath (ws : Bool) (elfName : List Char) (h : elfName.length < 128) :
      Copies (bif ws then pure elfName else drivePath fuel elfName) fun _ => True := by
    cases ws with
    | true => exact .pure trivial
    | false => exact copies_drivePath fuel h
  refine .bind (copies_scanName room_256 fuel) fun elfName helfName =>
      .bind (copies_expect room_256 _) fun _ _ =>
    .bind copies_isWSLookahead fun ws _ => .bind (hpath ws elfName helfName) fun elfName _ =>
    .bind (copies_keyword room_256 _) fun _ _ => .bind (copies_keyword room_256 _) fun _ _ =>
    .bind (copies_expect room_256 _) fun lex _ => ?_
  cases elfFormat lex with
  | some => exact .pure trivial
  | none => exact .err

theorem copies_sectionFlags (n : ℕ) (flags : BitVec 32) :
    Copies (sectionFlags n flags) fun r => r.2.2.length < 128 := by
  induction n generalizing flags with
  | zero => exact .outOfFuel
  | succ n ih =>
    refine .bind (copies_expect room_256 _) fun lex _ => ?_
    cases sectFlag lex with
    | none => exact .err
    | some flag =>
      refine .bind (copies_getNextLex room_256) fun r hr => ?_
      split
      · exact ih _
      · exact .pure hr
      · exact .err

theorem copies_parseSection (fuel : ℕ) (vmaOffset : ADDRESS) :
    Copies (parseSection fuel vmaOffset) fun r => r.2.2.length < 128 := by
  refine .bind (copies_getNextLex room_256) fun r hr =>
    .ite (fun _ => .bind (copies_copy room_256 hr) fun _ _ => .pure hr) fun _ => ?_
  refine .bind (copies_expect room_256 _) fun name hname => .bind (copies_hexNumber room_256)
      fun size _ =>
    .bind (copies_hexNumber room_256) fun vma _ => .bind (copies_hexNumber room_256) fun _ _ =>
    .bind (copies_hexNumber room_256) fun offset _ => .bind (copies_expect room_256 _)
      fun lex _ => ?_
  cases alignments.lookup lex with
  | none => exact .err
  | some align =>
    exact .bind (copies_expect room_256 _) fun _ _ => .bind (copies_sectionFlags fuel 0) fun _ hr =>
      .ite (fun _ => .bind (copies_copy room_256 hname) fun _ _ => .bind (copies_copy room_256 hr)
        fun _ _ => .pure hr) fun _ => .bind (copies_copy room_256 hr) fun _ _ => .pure hr

theorem copies_sections (vmaOffset : ADDRESS) (n : ℕ) (lst : List Section) :
    Copies (sections vmaOffset n lst) fun r => r.2.2.length < 128 := by
  induction n generalizing lst with
  | zero => exact .outOfFuel
  | succ n ih => exact .bind (copies_parseSection n vmaOffset) fun _ hr => .ite (fun _ => ih _) fun _ => .pure hr

theorem copies_parseSectionList (fuel : ℕ) (lst : List Section) (vmaOffset : ADDRESS) :
    Copies (parseSectionList fuel lst vmaOffset) fun r => r.2.2.length < 128 :=
  .bind (copies_getNextLex room_256) fun _ hr => .bind (copies_skipEols room_256 fuel false hr)
      fun _ hr =>
    .ite (fun _ => .bind (copies_copy room_256 hr) fun _ _ => .pure hr)
      fun _ => .bind (copies_expect room_256 _) fun _ _ =>
    .bind (copies_expect room_256 _) fun _ _ => .bind (copies_keywords room_256 _) fun _ _ =>
    .bind (copies_expect room_256 _) fun _ _ => .bind (copies_sections vmaOffset fuel lst)
      fun _ hr =>
    .bind (copies_copy room_256 hr) fun _ _ => .pure hr

/-! ### The disassembly -/

theorem copies_endOfLine (type : ObjDumpTokenType) : Copies (endOfLine type) fun _ => True :=
  .ite (fun _ => .pure trivial) fun _ => .err

theorem copies_pathLine {text : List Char} (h : text.length < 128) :
    Copies (pathLine 1024 text) fun r => r.1.length < 128 :=
  .bind (copies_expect room_256 _) fun lex hlex => by
    cases isStringADecNumber lex with
    | some => exact .pure h
    | none =>
      exact .bind (copies_copy room_1024 hlex) fun _ _ => .bind (copies_expect room_256 _)
          fun _ _ =>
        .bind (copies_decNumber room_256) fun _ _ => .pure hlex

theorem copies_pathDiscriminator (type : ObjDumpTokenType) :
    Copies (pathDiscriminator type) fun _ => True :=
  .ite (fun _ => .bind (copies_expect room_256 _) fun _ _ => .bind (copies_expect room_256 _)
      fun _ _ =>
    .bind (copies_expect room_256 _) fun _ _ => .bind (copies_getNextLex room_256) fun _ _ =>
      .pure trivial)
    fun _ => .pure trivial

theorem copies_lineDiscriminator (type : ObjDumpTokenType) :
    Copies (lineDiscriminator type) fun _ => True :=
  .ite (fun _ => .bind (copies_keyword room_256 _) fun _ _ => .bind (copies_decNumber room_256)
      fun _ _ =>
    .bind (copies_expect room_256 _) fun _ _ => .bind (copies_getNextLex room_256) fun _ _ =>
      .pure trivial)
    fun _ => .pure trivial

def ShortPath : LineT → Prop
  | .path text _ => text.length < 128
  | .label | .diss _ _ _ | .func => True

theorem copies_parseFileOrLabelOrDisassembly :
    Copies (parseFileOrLabelOrDisassembly 1024) ShortPath := by
  refine .bind (copies_getNextLex room_256) fun ⟨type, _⟩ _ => ?_
  dsimp only
  split
  · exact .bind (copies_expect room_1024 _) fun _ _ => .bind (copies_expect room_256 _) fun _ _ =>
      .bind (copies_expect room_256 _) fun _ _ => .bind (copies_getNextLex room_256) fun r _ =>
      .bind (copies_endOfLine r.1) fun _ _ => .pure trivial
  · exact .bind (copies_expect room_256 _) fun _ _ => .bind (copies_expect room_256 _) fun _ _ =>
      .bind (copies_getNextLex room_256) fun r _ => .bind (copies_endOfLine r.1) fun _ _ =>
        .pure trivial
  · refine .bind (copies_expect room_1024 _) fun text htext => ?_
    cases isStringAHexNumber text with
    | none =>
      exact .bind (copies_expect room_256 _) fun _ _ => .bind (copies_pathLine htext) fun _ hpath =>
        .bind (copies_getNextLex room_256) fun r _ => .bind (copies_pathDiscriminator r.1)
          fun type _ =>
        .bind (copies_endOfLine type) fun _ _ => .pure hpath
    | some n =>
      exact .ite (fun _ => .bind copies_getRestOfLine fun r _ => .bind (copies_endOfLine r.1)
        fun _ _ => .pure trivial) fun _ => .err
  · exact .err

theorem copies_parseFileLine : Copies parseFileLine fun _ => True :=
  .bind (copies_expect room_256 _) fun _ _ => .bind (copies_decNumber room_256) fun _ _ =>
    .bind (copies_getNextLex room_256) fun r _ => .bind (copies_lineDiscriminator r.1) fun type _ =>
    .bind (copies_endOfLine type) fun _ _ => .pure trivial

theorem copies_useCell {γ : Type} (cells : Option (Cells γ)) (i : ℤ) :
    Copies (useCell cells i) fun _ => True :=
  .write trivial

theorem hexUpper_length_le (n : BitVec 32) : (hexUpper n).length ≤ 8 := by
  rw [hexUpper, List.length_map, Nat.length_toDigits_le_iff (by decide) (by decide)]
  exact n.isLt

theorem copies_numberLine (s : Listing) (addr : ADDRESS) :
    Copies (numberLine s addr) fun _ => True := by
  refine .bind copies_parseFileOrLabelOrDisassembly fun r hr => ?_
  cases r with
  | label => exact .pure trivial
  | func => exact .pure trivial
  | diss text length value =>
    exact .bind (copies_useCell _ _) fun _ _ =>
      .bind (.ite (fun _ => copies_useCell _ _) fun _ => .pure trivial) fun _ _ =>
        .bind (copies_useCell _ _) fun _ _ =>
      .bind (copies_useCell _ _) fun _ _ => .bind (copies_useCell _ _) fun _ _ => .pure trivial
  | path text value =>
    have hnumber :=
      Nat.lt_of_le_of_lt (hexUpper_length_le (addr.setWidth 32)) (show 8 < 128 by decide)
    exact .bind (copies_join (show 256 ≤ 1024 by decide) hnumber hr).2 fun _ _ => .pure trivial

theorem copies_nameLine (s : Listing) {lex : List Char} (h : lex.length < 128) :
    Copies (nameLine s lex) fun _ => True := by
  refine .bind copies_parseFileOrLabelOrDisassembly fun r hr => ?_
  cases r with
  | label => exact .err
  | func => exact .pure trivial
  | diss text length value => exact .err
  | path text value =>
    obtain ⟨hfront, hall⟩ := copies_join (show 256 ≤ 1024 by decide) h hr
    exact .bind hfront fun _ _ => .bind hall fun _ _ => .pure trivial

theorem copies_listingLine (s : Listing) (eol : Bool) {lex : List Char} (h : lex.length < 128) :
    Copies (listingLine s eol lex) fun _ => True := by
  refine .ite (fun _ => .bind (copies_expect room_1024 _) fun _ _ => .pure trivial) fun _ => ?_
  cases isStringAHexNumber lex with
  | some addr => exact .bind (copies_numberLine s addr) fun _ _ => .pure trivial
  | none =>
    exact .ite (fun _ => .pure trivial) fun _ => .ite (fun _ => .bind copies_parseFileLine
      fun _ _ => .pure trivial) fun _ => .bind (copies_nameLine s h) fun _ _ => .pure trivial

theorem copies_scoot (n : ℕ) (type : ObjDumpTokenType) : Copies (scoot n type) fun _ => True := by
  induction n generalizing type with
  | zero => exact .outOfFuel
  | succ n ih => exact .ite (fun _ => .pure trivial) fun _ => .bind (copies_getNextLex room_1024) fun r _ => ih r.1

theorem copies_unknownFile (fuel : ℕ) : Copies (unknownFile fuel) fun _ => True :=
  .bind (copies_expect room_1024 _) fun _ _ => .ite (fun _ => .bind (copies_expect room_1024 _)
      fun _ _ =>
    .bind (copies_getNextLex room_1024) fun r _ => .ite (fun _ => .bind (.write trivial) fun _ _ =>
      copies_scoot fuel r.1) fun _ => .ite (fun _ => copies_scoot fuel r.1) fun _ => .err)
        fun _ => .err

theorem copies_listing (n : ℕ) (s : Listing) {r : ObjDumpTokenType × List Char}
    (hr : r.2.length < 128) :
    Copies (listing n s r) fun _ => True := by
  induction n generalizing s r with
  | zero => exact .outOfFuel
  | succ n ih =>
    refine .bind (copies_skipEols room_1024 n false hr) fun ⟨eol, type, lex⟩ hlex => ?_
    dsimp only
    split
    · exact .bind (copies_unknownFile n) fun _ _ => ih s (by decide)
    · refine .bind (copies_listingLine s eol hlex) fun s' _ => ?_
      cases s' with
      | none => exact .bind (copies_copy room_256 hlex) fun _ _ => .pure trivial
      | some s' => exact .bind (copies_getNextLex room_1024) fun r hr => ih s' hr
    · exact .bind (copies_copy room_256 hlex) fun _ _ => .pure trivial

theorem copies_sectionName (eType : ElfType) (startAddr : ADDRESS) (lex : List Char) :
    Copies (sectionName eType startAddr lex) fun _ => True := by
  have hblob : (Note.copy 1024 ((blobName startAddr).take 1023)).Fits :=
    Nat.lt_succ_of_le (List.length_take_le _ _)
  cases eType with
  | unknown => exact .err
  | little64 => exact .pure trivial
  | little32 => exact .pure trivial
  | binary32 => exact .bind (.write hblob) fun _ _ => .pure trivial
  | binary64 => exact .bind (.write hblob) fun _ _ => .pure trivial

theorem copies_parseDisassemblyList (fuel : ℕ) (eType : ElfType) (lst : List Section)
    (root : SrcFileRoot)
    (startAddr : ADDRESS) :
    Copies (parseDisassemblyList fuel eType lst root startAddr) fun _ => True := by
  refine .bind (copies_keyword room_1024 _) fun _ _ => .bind (copies_keyword room_1024 _) fun _ _ =>
    .bind (copies_expect room_1024 _) fun lex _ => .bind (copies_sectionName eType startAddr lex)
      fun lex _ => ?_
  cases Section.getSectionByName lex lst with
  | none => exact .err
  | some sp =>
    exact .bind (copies_expect room_1024 _) fun _ _ => .bind (copies_expect room_1024 _) fun _ _ =>
      .bind (copies_listing fuel _ (by decide)) fun _ _ => .pure trivial

/-! ### The symbols and the whole parse -/

theorem copies_symbolName {symName : List Char} (h : symName.length < 128) :
    Copies (symbolName symName) fun _ => True := by
  refine .bind (copies_getNextLex room_256) fun ⟨type, lex⟩ hr => ?_
  dsimp only
  split
  · exact .bind (copies_copy room_256 hr) fun _ _ => .bind (copies_expect room_256 _) fun _ _ =>
      .pure trivial
  · refine .bind (copies_expect room_256 _) fun lex hlex => ?_
    obtain ⟨hfront, hall⟩ := copies_join le_rfl h hlex
    exact .bind hfront fun _ _ => .bind hall fun _ _ => .bind (copies_expect room_256 _) fun _ _ =>
      .pure trivial
  · exact .pure trivial
  · exact .err

theorem copies_parseSymbol : Copies parseSymbol fun _ => True := by
  refine .bind copies_parseFixedField fun symFlags _ => .bind (copies_expect room_256 _)
      fun secName _ =>
    .bind (copies_hexNumber room_256) fun symSize _ => .bind (copies_getNextLex room_256)
      fun ⟨type, symName⟩ hr => ?_
  dsimp only
  split
  · exact .pure trivial
  · exact .bind (copies_symbolName hr) fun _ _ => .pure trivial
  · exact .err

theorem copies_symbols (lst : List Section) (vmaOffset : ADDRESS) (n : ℕ) (s : SymTable) :
    Copies (symbols lst vmaOffset n s) fun _ => True := by
  induction n generalizing s with
  | zero => exact .outOfFuel
  | succ n ih =>
    refine .bind (copies_getNextLex room_256) fun r hr =>
      .bind (copies_skipEols room_256 n false hr) fun ⟨_, type, lex⟩ hlex => .ite (fun _ => .err)
          fun _ => .ite (fun _ => .bind (copies_keyword room_256 _) fun _ _ =>
        .bind (copies_getNextLex room_256) fun _ hr => .bind (copies_skipEols room_256 n false hr)
          fun _ _ => .pure trivial)
      fun _ => ?_
    cases isStringAHexNumber lex with
    | none => exact .bind (copies_copy room_256 hlex) fun _ _ => .pure trivial
    | some addr =>
      refine .bind copies_parseSymbol fun ⟨secName, symName, symFlags, symSize⟩ _ => ?_
      cases symName with
      | some symName => exact ih _
      | none => exact ih _

theorem copies_parseSymbolTable (fuel : ℕ) (syms : List Sym) (lst : List Section)
    (vmaOffset : ADDRESS) :
    Copies (parseSymbolTable fuel syms lst vmaOffset) fun _ => True :=
  .bind (copies_keyword room_256 _) fun _ _ => .bind (copies_expect room_256 _) fun _ _ =>
    .bind (copies_expect room_256 _) fun _ _ => copies_symbols lst vmaOffset fuel _

theorem copies_tables (eType : ElfType) (vmaOffset startAddr : ADDRESS) (n : ℕ) (e : ElfData)
    (r : ObjDumpTokenType × List Char) :
    Copies (tables eType vmaOffset startAddr n e r) fun _ => True := by
  induction n generalizing e r with
  | zero => exact .outOfFuel
  | succ n ih =>
    obtain ⟨type, lex⟩ := r
    exact .ite (fun _ => .pure trivial) fun _ => .ite
      (fun _ => .bind (copies_parseDisassemblyList _ _ _ _ _) fun _ _ => ih _ _)
      fun _ => .ite (fun _ => .bind (copies_parseSymbolTable _ _ _ _) fun _ _ => ih _ _)
        fun _ => .err

theorem copies_parseObjDump (fuel : ℕ) (e : ElfData) (vmaOffset startAddr endAddr : ADDRESS) :
    Copies (parseObjDump fuel e vmaOffset startAddr endAddr) fun _ => True := by
  have hblob : (Note.copy 256 ((blobName startAddr).take 255)).Fits :=
    Nat.lt_succ_of_le (List.length_take_le _ _)
  refine .bind (copies_parseElfName fuel) fun ⟨_, et⟩ _ => ?_
  dsimp only
  cases archType e.archSize et with
  | none => exact .err
  | some arch =>
    exact .ite (fun _ => .err) fun _ => .bind (.ite (fun _ => .write hblob) fun _ => .pure trivial)
        fun _ _ =>
      .bind (copies_parseSectionList fuel _ _) fun _ hr => .bind (copies_skipEols room_256 fuel
        false hr) fun _ _ =>
      .bind (copies_tables _ _ _ fuel _ _) fun _ _ => .ite (fun _ => .pure trivial) fun _ => .err

/-! ### The result -/

/-- Every text that is written to an array fits in it, however far the parse goes. -/
def NothingOverrun (e : ElfData) (vmaOffset startAddr endAddr : ADDRESS) (s : ObjDump) : Prop :=
  ∀ fuel, ∀ w ∈ (parseObjDump fuel e vmaOffset startAddr endAddr).notes answer s, w.1.Fits

/-- What is noted on the pipe is what is noted on the text. -/
theorem forall_notes_iff {s : ObjDump} {t : List Char} (h : s.Holds t) (d : Parser α)
    (P : Note → Prop) :
    (∀ w ∈ d.notes ObjDump.answer s, P w.1) ↔ ∀ w ∈ d.notes Text.answer t, P w.1 := by
  have hnotes := notes_matches (R := Holds) (fun c _ _ hst => hst.answer c) d s t h
  generalize d.notes ObjDump.answer s = ws at hnotes
  generalize d.notes Text.answer t = ws' at hnotes
  induction hnotes with
  | nil => exact ⟨fun _ => nofun, fun _ => nofun⟩
  | cons hw _ ih =>
    rw [List.forall_mem_cons, List.forall_mem_cons, hw.1]
    exact and_congr_right fun _ => ih

/-- Short words and lines overrun nothing, whatever the parser makes of them. -/
theorem nothingOverrun_of_narrow {s : ObjDump} {t : List Char} (hs : s.Holds t) (h : Narrow t)
    (e : ElfData)
    (vmaOffset startAddr endAddr : ADDRESS) : NothingOverrun e vmaOffset startAddr endAddr s :=
  fun fuel =>
  (forall_notes_iff hs _ Note.Fits).mpr
    ((copies_parseObjDump fuel e vmaOffset startAddr endAddr).notes Text.answer_short h)

def longPath : List Char := List.replicate 256 'a'

theorem longPath_overruns :
    ¬ ∀ (stdoutPipe : ℕ) (pipeBuffer t : List Char) (d : Division t) (e : ElfData)
    (vmaOffset startAddr endAddr : ADDRESS),
    NothingOverrun e vmaOffset startAddr endAddr
      (init stdoutPipe pipeBuffer (d.chunks.map some)) := by
  intro h
  have hfits := (forall_notes_iff (holds_init 0 [] _) _ Note.Fits).mp
    (h 0 [] longPath (.single longPath) ⟨0, [], [], ⟨[]⟩⟩ 0 0 0 1)
  have hw : (.lex 256 longPath, []) ∈ (parseObjDump 1 ⟨0, [], [], ⟨[]⟩⟩ 0 0 0).notes Text.answer
      longPath := by
    decide +kernel
  exact absurd (hfits _ hw) (by decide +kernel)

end Parser

end ObjDump

end TraceDecoder
