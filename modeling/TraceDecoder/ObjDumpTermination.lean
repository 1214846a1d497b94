import TraceDecoder.ObjDumpProgress

/-!
# When the parser for objdump returns

The parse functions one by one, and from them the whole parse: with enough fuel it ends, but where
it gets stuck behind the file name `<unknown>`.
-/

namespace TraceDecoder

open Dialogue

namespace ObjDump

namespace Parser

variable {α β : Type} {n : ℕ} (room : ℕ)

/-! ### Tokens -/

theorem settles_getNextLex : Settles n (getNextLex room) :=
  .call_bind fun _ => .note_bind nofun (.pure _)

theorem settles_getRestOfLine : Settles n (getRestOfLine room) :=
  .call_bind fun _ => .note_bind nofun (.pure _)

theorem settles_isWSLookahead : Settles n isWSLookahead := .call_bind fun _ => .pure _

theorem settles_parseFixedField : Settles n parseFixedField :=
  .call_bind fun _ => .ite (.pure _) .err

theorem settles_expect (type : ObjDumpTokenType) : Settles n (expect room type) :=
  .bind (settles_getNextLex room) fun _ => .ite (.pure _) .err

theorem takes_expect {type : ObjDumpTokenType} (h : type ≠ .eof) :
    Takes (fun _ => False) (expect room type) := by
  refine .bind (.getNextLex room) fun r hr => ?_
  rw [if_neg fun heq : r.1 = type => h (heq ▸ hr)]
  exact .err

theorem settles_keyword (word : List Char) : Settles n (keyword room word) :=
  .bind (settles_expect room _) fun _ => .ite (.pure _) .err

theorem settles_keywords (words : List (List Char)) : Settles n (keywords room words) := by
  induction words with
  | nil => exact .pure ()
  | cons word words ih => exact .bind (settles_keyword room word) fun _ => ih

theorem settles_hexNumber : Settles n (hexNumber room) :=
  .bind (settles_expect room _) fun lex => by
    cases isStringAHexNumber lex with
    | some => exact .pure _
    | none => exact .err

theorem settles_decNumber : Settles n (decNumber room) :=
  .bind (settles_expect room _) fun lex => by
    cases isStringADecNumber lex with
    | some => exact .pure _
    | none => exact .err

/-- The next token and a program that does nothing at the end of the file: for all other tokens
there is less text. -/
theorem settles_lex_bind {f : ObjDumpTokenType × List Char → Parser α}
    (heof : ∀ r, r.1 = .eof → Settles n (f r))
    (h : ∀ r m, m + 1 = n → Settles m (f r)) : Settles n (getNextLex room >>= f) :=
  .bind_takes (settles_getNextLex room) (.getNextLex room) heof h

theorem settles_expect_bind {type : ObjDumpTokenType} {f : List Char → Parser α}
    (htype : type ≠ .eof)
    (h : ∀ lex m, m + 1 = n → Settles m (f lex)) : Settles n (expect room type >>= f) :=
  .bind_takes (settles_expect room type) (takes_expect room htype) (fun _ => False.elim) h

theorem settles_skipEols {k : ℕ} (hk : n + 2 ≤ k) (eol : Bool) (r : ObjDumpTokenType × List Char) :
    Settles n (skipEols room k eol r) := by
  induction n using Nat.strong_induction_on generalizing k eol r with
  | h n ih =>
    obtain ⟨k, rfl⟩ : ∃ k', k = k' + 2 := ⟨k - 2, by omega⟩
    refine .ite (settles_lex_bind room (fun r hr => ?_) fun r m hm => ih m (by omega) (by omega)
      true r) (.pure _)
    rw [skipEols, if_neg (by rw [hr]; decide)]
    exact .pure _

/-! ### The file name and the sections -/

theorem settles_scanName {k : ℕ} (hk : n + 1 ≤ k) : Settles n (scanName room k) := by
  induction n using Nat.strong_induction_on generalizing k with
  | h n ih =>
    obtain ⟨k, rfl⟩ : ∃ k', k = k' + 1 := ⟨k - 1, by omega⟩
    refine settles_lex_bind room (fun r hr => ?_) fun r m hm => ?_
    · rw [hr]
      exact .err
    · split
      · exact ih m (by omega) (by omega)
      · exact .pure _
      · exact .err

theorem settles_drivePath {k : ℕ} (hk : n + 1 ≤ k) (elfName : List Char) :
    Settles n (drivePath k elfName) :=
  .bind (settles_scanName 256 hk) fun _ => .bind (.write nofun) fun _ => .bind (.write nofun)
      fun _ =>
    .bind (settles_expect _ _) fun _ => .pure _

theorem settles_parseElfName {k : ℕ} (hk : n + 1 ≤ k) : Settles n (parseElfName k) := by
  refine .bind (settles_scanName 256 hk) fun elfName => .bind (settles_expect _ _) fun _ =>
    .bind settles_isWSLookahead fun ws => .bind ?_ fun elfName => .bind (settles_keyword _ _)
      fun _ =>
    .bind (settles_keyword _ _) fun _ => .bind (settles_expect _ _) fun lex => ?_
  · cases ws with
    | true => exact .pure _
    | false => exact settles_drivePath hk elfName
  · cases elfFormat lex with
    | some => exact .pure _
    | none => exact .err

theorem settles_sectionFlags {k : ℕ} (hk : n + 1 ≤ k) (flags : BitVec 32) :
    Settles n (sectionFlags k flags) := by
  induction n using Nat.strong_induction_on generalizing k flags with
  | h n ih =>
    obtain ⟨k, rfl⟩ : ∃ k', k = k' + 1 := ⟨k - 1, by omega⟩
    refine settles_expect_bind 256 nofun fun lex m hm => ?_
    cases sectFlag lex with
    | none => exact .err
    | some flag =>
      refine .bind (settles_getNextLex 256) fun r => ?_
      split
      · exact ih m (by omega) (by omega) _
      · exact .pure _
      · exact .err

theorem settles_parseSection {k : ℕ} (hk : n + 1 ≤ k) (vmaOffset : ADDRESS) :
    Settles n (parseSection k vmaOffset) := by
  refine .bind (settles_getNextLex 256) fun r => .ite (.bind (.write nofun) fun _ => .pure _) ?_
  refine .bind (settles_expect _ _) fun name => .bind (settles_hexNumber _) fun size =>
      .bind (settles_hexNumber _) fun vma =>
    .bind (settles_hexNumber _) fun _ => .bind (settles_hexNumber _) fun offset =>
      .bind (settles_expect _ _) fun lex => ?_
  cases alignments.lookup lex with
  | none => exact .err
  | some align =>
    exact .bind (settles_expect _ _) fun _ => .bind (settles_sectionFlags hk 0) fun _ =>
      .ite (.bind (.write nofun) fun _ => .bind (.write nofun) fun _ => .pure _)
        (.bind (.write nofun) fun _ => .pure _)

/-- What ends with the end of a line has taken characters. -/
theorem takes_parseSection (k : ℕ) (vmaOffset : ADDRESS) :
    Takes (fun r => r.2.1 ≠ .eol) (parseSection k vmaOffset) := by
  refine .bind (.getNextLex 256) fun r hr => ?_
  rw [if_pos (.inl (by rw [hr]; decide))]
  refine fun t a t' hrun ha => absurd ?_ ha
  cases hrun
  rw [hr]
  decide

theorem settles_sections {k : ℕ} (hk : n + 2 ≤ k) (vmaOffset : ADDRESS) (lst : List Section) :
    Settles n (sections vmaOffset k lst) := by
  induction n using Nat.strong_induction_on generalizing k lst with
  | h n ih =>
    obtain ⟨k, rfl⟩ : ∃ k', k = k' + 1 := ⟨k - 1, by omega⟩
    refine .bind_takes (settles_parseSection (by omega) vmaOffset) (takes_parseSection k vmaOffset)
      (fun ⟨sp, r⟩ ha => ?_) fun ⟨sp, r⟩ m hm => .ite (ih m (by omega) (by omega) _) (.pure _)
    dsimp only
    rw [if_neg ha]
    exact .pure _

theorem settles_parseSectionList {k : ℕ} (hk : n + 2 ≤ k) (lst : List Section)
    (vmaOffset : ADDRESS) :
    Settles n (parseSectionList k lst vmaOffset) :=
  .bind (settles_getNextLex 256) fun r => .bind (settles_skipEols 256 hk false r) fun _ =>
    .ite (.bind (.write nofun) fun _ => .pure _) <|
    .bind (settles_expect _ _) fun _ => .bind (settles_expect _ _)
      fun _ => .bind (settles_keywords _ _) fun _ =>
    .bind (settles_expect _ _) fun _ => .bind (settles_sections hk vmaOffset lst) fun _ =>
    .bind (.write nofun) fun _ => .pure _

/-! ### The disassembly -/

theorem settles_endOfLine (type : ObjDumpTokenType) : Settles n (endOfLine type) :=
  .ite (.pure _) .err

theorem settles_pathLine (text : List Char) : Settles n (pathLine room text) :=
  .bind (settles_expect _ _) fun lex => by
    cases isStringADecNumber lex with
    | some => exact .pure _
    | none => exact .bind (.write nofun) fun _ => .bind (settles_expect _ _) fun _ => .bind (settles_decNumber _) fun _ => .pure _

theorem settles_pathDiscriminator (type : ObjDumpTokenType) : Settles n (pathDiscriminator type) :=
  .ite (.bind (settles_expect _ _) fun _ => .bind (settles_expect _ _) fun _ =>
      .bind (settles_expect _ _) fun _ =>
    .bind (settles_getNextLex _) fun _ => .pure _) (.pure _)

theorem settles_lineDiscriminator (type : ObjDumpTokenType) : Settles n (lineDiscriminator type) :=
  .ite (.bind (settles_keyword _ _) fun _ => .bind (settles_decNumber _) fun _ =>
      .bind (settles_expect _ _) fun _ =>
    .bind (settles_getNextLex _) fun _ => .pure _) (.pure _)

theorem settles_parseFileOrLabelOrDisassembly : Settles n (parseFileOrLabelOrDisassembly room) := by
  refine .bind (settles_getNextLex 256) fun ⟨type, _⟩ => ?_
  dsimp only
  split
  · exact .bind (settles_expect _ _) fun _ => .bind (settles_expect _ _)
        fun _ => .bind (settles_expect _ _) fun _ =>
      .bind (settles_getNextLex _) fun r => .bind (settles_endOfLine r.1) fun _ => .pure _
  · exact .bind (settles_expect _ _) fun _ => .bind (settles_expect _ _) fun _ =>
      .bind (settles_getNextLex _) fun r => .bind (settles_endOfLine r.1) fun _ => .pure _
  · refine .bind (settles_expect _ _) fun text => ?_
    cases isStringAHexNumber text with
    | none =>
      exact .bind (settles_expect _ _) fun _ => .bind (settles_pathLine _ _)
          fun _ => .bind (settles_getNextLex _) fun r =>
        .bind (settles_pathDiscriminator r.1) fun type => .bind (settles_endOfLine type)
          fun _ => .pure _
    | some n' => exact .ite (.bind (settles_getRestOfLine _) fun r => .bind (settles_endOfLine r.1)
        fun _ => .pure _) .err
  · exact .err

theorem settles_parseFileLine : Settles n parseFileLine :=
  .bind (settles_expect _ _) fun _ => .bind (settles_decNumber _)
      fun _ => .bind (settles_getNextLex _) fun r =>
    .bind (settles_lineDiscriminator r.1) fun type => .bind (settles_endOfLine type)
      fun _ => .pure _

theorem settles_useCell {γ : Type} (cells : Option (Cells γ)) (i : ℤ) :
    Settles n (useCell cells i) := .write nofun

theorem settles_numberLine (s : Listing) (addr : ADDRESS) : Settles n (numberLine s addr) := by
  refine .bind (settles_parseFileOrLabelOrDisassembly _) fun r => ?_
  cases r with
  | label => exact .pure _
  | func => exact .pure _
  | diss text length value =>
    exact .bind (settles_useCell _ _) fun _ => .bind (.ite (settles_useCell _ _) (.pure _)) fun _ =>
      .bind (settles_useCell _ _) fun _ => .bind (settles_useCell _ _)
        fun _ => .bind (settles_useCell _ _) fun _ => .pure _
  | path text value => exact .bind (.write nofun) fun _ => .pure _

theorem settles_nameLine (s : Listing) (lex : List Char) : Settles n (nameLine s lex) := by
  refine .bind (settles_parseFileOrLabelOrDisassembly _) fun r => ?_
  cases r with
  | label => exact .err
  | func => exact .pure _
  | diss text length value => exact .err
  | path text value => exact .bind (.write nofun) fun _ => .bind (.write nofun) fun _ => .pure _

theorem settles_listingLine (s : Listing) (eol : Bool) (lex : List Char) :
    Settles n (listingLine s eol lex) := by
  refine .ite (.bind (settles_expect _ _) fun _ => .pure _) ?_
  cases isStringAHexNumber lex with
  | some addr => exact .bind (settles_numberLine s addr) fun _ => .pure _
  | none =>
    exact .ite (.pure _) (.ite (.bind settles_parseFileLine fun _ => .pure _)
      (.bind (settles_nameLine s lex) fun _ => .pure _))

/-! ### Lines of an unknown file -/

theorem scoot_notes (k : ℕ) (type : ObjDumpTokenType) (t : List Char) :
    ∀ w ∈ (scoot k type).notes Text.answer t, w.1 ≠ .scoot := by
  induction k generalizing type t with
  | zero => exact nofun
  | succ k ih =>
    rw [scoot]
    by_cases heol : type = .eol
    · rw [if_pos heol]
      exact nofun
    · rw [if_neg heol]
      intro w hw
      rcases List.mem_cons.mp hw with rfl | hw
      · exact nofun
      · exact ih _ _ w hw

theorem scoot_ends {k : ℕ} {t : List Char} (hk : t.length + 2 ≤ k) (hnewline : '\n' ∈ t)
    (type : ObjDumpTokenType) (t' : List Char) :
    (scoot k type).run Text.answer t ≠ .error .outOfFuel t' := by
  induction k generalizing type t with
  | zero => omega
  | succ k ih =>
    rw [scoot]
    by_cases heol : type = .eol
    · rw [if_pos heol]
      exact nofun
    · rw [if_neg heol]
      change (scoot k (Text.nextLex t).1).run Text.answer (Text.nextLex t).2.2 ≠ _
      rcases Text.nextLex_newline hnewline with heol | ⟨heof, hmem⟩
      · obtain ⟨k, rfl⟩ : ∃ k', k = k' + 1 := ⟨k - 1, by omega⟩
        rw [heol, scoot, if_pos rfl]
        exact nofun
      · exact ih (by have := Text.nextLex_length heof; omega) hmem _

theorem scoot_stuck (k : ℕ) {type : ObjDumpTokenType} (htype : type ≠ .eol) {t : List Char}
    (hnewline : '\n' ∉ t) :
    ∃ t', (scoot k type).run Text.answer t = .error .outOfFuel t' := by
  induction k generalizing type t with
  | zero => exact ⟨t, rfl⟩
  | succ k ih =>
    rw [scoot, if_neg htype]
    exact ih (Text.nextLex_no_newline hnewline).1 (Text.nextLex_no_newline hnewline).2

theorem stalls_scoot {k : ℕ} (hk : n + 2 ≤ k) :
    Stalls n (write .scoot >>= fun _ => scoot k .colon) := by
  intro t ht
  rw [run_bind, notes_bind]
  change (∃ t', (scoot k .colon).run Text.answer t = _) ↔
    ∃ w ∈ (Note.scoot, t) :: (scoot k .colon).notes Text.answer t, Stuck w
  by_cases hnewline : '\n' ∈ t
  · refine ⟨fun ⟨t', h⟩ => absurd h (scoot_ends (by omega) hnewline _ t'), fun ⟨w, hw, hstuck⟩ =>
      ?_⟩
    rcases List.mem_cons.mp hw with rfl | hw
    · exact absurd hnewline hstuck.2
    · exact absurd hstuck.1 (scoot_notes _ _ _ w hw)
  · exact ⟨fun _ => ⟨_, List.mem_cons_self, rfl, hnewline⟩, fun _ => @scoot_stuck k .colon
      nofun t hnewline⟩

theorem takes_unknownFile (k : ℕ) : Takes (fun _ => False) (unknownFile k) :=
  .bind (takes_expect 1024 nofun) fun _ => False.elim

theorem stalls_unknownFile {k : ℕ} (hk : n + 2 ≤ k) : Stalls n (unknownFile k) := by
  refine .bind (settles_expect _ _) fun lex => .ite (.bind (settles_expect _ _) fun _ =>
    .bind (settles_getNextLex _) fun ⟨type, _⟩ => ?_) Settles.err.stalls
  dsimp only
  by_cases hcolon : type = .colon
  · rw [if_pos hcolon, hcolon]
    exact stalls_scoot hk
  · rw [if_neg hcolon]
    by_cases heol : type = .eol
    · obtain ⟨k, rfl⟩ : ∃ k', k = k' + 1 := ⟨k - 1, by omega⟩
      rw [if_pos heol, heol, scoot, if_pos rfl]
      exact (Settles.pure _).stalls
    · rw [if_neg heol]
      exact Settles.err.stalls

/-! ### The whole parse -/

theorem settles_handBack (lex : List Char) (a : α) :
    Settles n (write (.copy 256 lex) >>= fun _ => pure a) :=
  .bind (.write nofun) fun _ => .pure a

theorem settles_listing_eof {k : ℕ} (hk : 2 ≤ k) (s : Listing) {r : ObjDumpTokenType × List Char}
    (hr : r.1 = .eof) :
    Settles n (listing k s r) := by
  obtain ⟨type, lex⟩ := r
  obtain ⟨k, rfl⟩ : ∃ k', k = k' + 2 := ⟨k - 2, by omega⟩
  cases hr
  have hskip : skipEols 1024 (k + 1) false (.eof, lex) = pure (false, .eof, lex) := if_neg nofun
  rw [listing, hskip]
  exact settles_handBack lex (s, ObjDumpTokenType.eof, lex)

theorem stalls_listing {k : ℕ} (hk : n + 3 ≤ k) (s : Listing) (r : ObjDumpTokenType × List Char) :
    Stalls n (listing k s r) := by
  induction n using Nat.strong_induction_on generalizing k s r with
  | h n ih =>
    obtain ⟨k, rfl⟩ : ∃ k', k = k' + 1 := ⟨k - 1, by omega⟩
    refine .bind (settles_skipEols 1024 (by omega) false r) fun ⟨eol, type, lex⟩ => ?_
    dsimp only
    split
    · exact .bind_takes (stalls_unknownFile (by omega)) (takes_unknownFile k) (fun _ => False.elim)
        fun _ m hm => ih m (by omega) (by omega) s _
    · refine .bind (settles_listingLine s eol lex) fun s' => ?_
      cases s' with
      | none => exact (settles_handBack lex _).stalls
      | some s' =>
        exact .bind_takes (settles_getNextLex 1024).stalls (.getNextLex 1024)
          (fun r hr => (settles_listing_eof (by omega) s' hr).stalls) fun r m hm => ih m (by omega)
            (by omega) s' r
    · exact (settles_handBack lex _).stalls

theorem settles_sectionName (eType : ElfType) (startAddr : ADDRESS) (lex : List Char) :
    Settles n (sectionName eType startAddr lex) := by
  cases eType with
  | unknown => exact .err
  | little64 => exact .pure _
  | little32 => exact .pure _
  | binary32 => exact .bind (.write nofun) fun _ => .pure _
  | binary64 => exact .bind (.write nofun) fun _ => .pure _

theorem takes_keyword (word : List Char) : Takes (fun _ => False) (keyword room word) :=
  .bind (takes_expect room nofun) fun _ => False.elim

theorem stalls_parseDisassemblyList {k : ℕ} (hk : n + 3 ≤ k) (eType : ElfType) (lst : List Section)
    (root : SrcFileRoot)
    (startAddr : ADDRESS) : Stalls n (parseDisassemblyList k eType lst root startAddr) := by
  refine .bind (settles_keyword _ _) fun _ => .bind (settles_keyword _ _)
      fun _ => .bind (settles_expect _ _) fun lex =>
    .bind (settles_sectionName eType startAddr lex) fun lex => ?_
  cases Section.getSectionByName lex lst with
  | none => exact Settles.err.stalls
  | some sp =>
    exact .bind (settles_expect _ _) fun _ => .bind (settles_expect _ _) fun _ =>
      (stalls_listing hk _ _).bind_of fun _ _ _ ht hrun => ⟨n, (run_length_le hrun).trans ht,
        (Settles.pure _).stalls⟩

theorem settles_symbolName (symName : List Char) : Settles n (symbolName symName) := by
  refine .bind (settles_getNextLex 256) fun ⟨type, lex⟩ => ?_
  dsimp only
  split
  · exact .bind (.write nofun) fun _ => .bind (settles_expect _ _) fun _ => .pure _
  · exact .bind (settles_expect _ _) fun _ => .bind (.write nofun) fun _ => .bind (.write nofun)
        fun _ =>
      .bind (settles_expect _ _) fun _ => .pure _
  · exact .pure _
  · exact .err

theorem settles_parseSymbol : Settles n parseSymbol := by
  refine .bind settles_parseFixedField fun symFlags => .bind (settles_expect _ _) fun secName =>
    .bind (settles_hexNumber _) fun symSize => .bind (settles_getNextLex _) fun ⟨type, symName⟩ =>
      ?_
  dsimp only
  split
  · exact .pure _
  · exact .bind (settles_symbolName symName) fun _ => .pure _
  · exact .err

theorem settles_symbols {k : ℕ} (hk : n + 3 ≤ k) (lst : List Section) (vmaOffset : ADDRESS)
    (s : SymTable) :
    Settles n (symbols lst vmaOffset k s) := by
  induction n using Nat.strong_induction_on generalizing k s with
  | h n ih =>
    obtain ⟨k, rfl⟩ : ∃ k', k = k' + 1 := ⟨k - 1, by omega⟩
    refine settles_lex_bind 256 (fun r hr => ?_) fun r m hm =>
      .bind (settles_skipEols 256 (by omega) false r) fun ⟨_, type, lex⟩ => .ite .err
          (.ite (.bind (settles_keyword _ _) fun _ => .bind (settles_getNextLex _) fun r =>
        .bind (settles_skipEols 256 (by omega) false r) fun _ => .pure _) ?_)
    · obtain ⟨type, lex⟩ := r
      cases hr
      obtain ⟨k, rfl⟩ : ∃ k', k = k' + 1 := ⟨k - 1, by omega⟩
      exact .err
    · cases isStringAHexNumber lex with
      | none => exact .bind (.write nofun) fun _ => .pure _
      | some addr =>
        refine .bind settles_parseSymbol fun ⟨secName, symName, symFlags, symSize⟩ => ?_
        cases symName with
        | some symName => exact ih m (by omega) (by omega) _
        | none => exact ih m (by omega) (by omega) _

theorem settles_parseSymbolTable {k : ℕ} (hk : n + 3 ≤ k) (syms : List Sym) (lst : List Section)
    (vmaOffset : ADDRESS) :
    Settles n (parseSymbolTable k syms lst vmaOffset) :=
  .bind (settles_keyword _ _) fun _ => .bind (settles_expect _ _)
      fun _ => .bind (settles_expect _ _) fun _ =>
    settles_symbols hk lst vmaOffset _

theorem takes_parseDisassemblyList (k : ℕ) (eType : ElfType) (lst : List Section)
    (root : SrcFileRoot) (startAddr : ADDRESS) :
    Takes (fun _ => False) (parseDisassemblyList k eType lst root startAddr) :=
  .bind (takes_keyword _ _) fun _ => False.elim

theorem takes_parseSymbolTable (k : ℕ) (syms : List Sym) (lst : List Section)
    (vmaOffset : ADDRESS) :
    Takes (fun _ => False) (parseSymbolTable k syms lst vmaOffset) :=
  .bind (takes_keyword _ _) fun _ => False.elim

theorem stalls_tables {k : ℕ} (hk : n + 4 ≤ k) (eType : ElfType) (vmaOffset startAddr : ADDRESS)
    (e : ElfData)
    (r : ObjDumpTokenType × List Char) : Stalls n (tables eType vmaOffset startAddr k e r) := by
  induction n using Nat.strong_induction_on generalizing k e r with
  | h n ih =>
    obtain ⟨k, rfl⟩ : ∃ k', k = k' + 1 := ⟨k - 1, by omega⟩
    obtain ⟨type, lex⟩ := r
    refine .ite (Settles.pure _).stalls (.ite ?_ (.ite ?_ Settles.err.stalls))
    · exact .bind_takes (stalls_parseDisassemblyList (by omega) _ _ _ _)
        (takes_parseDisassemblyList k _ _ _ _) (fun _ => False.elim) fun _ m hm => ih m (by omega)
          (by omega) _ _
    · exact .bind_takes (settles_parseSymbolTable (by omega) _ _ _).stalls
        (takes_parseSymbolTable k _ _ _) (fun _ => False.elim) fun _ m hm => ih m (by omega)
          (by omega) _ _

theorem stalls_parseObjDump {k : ℕ} (hk : n + 4 ≤ k) (e : ElfData)
    (vmaOffset startAddr endAddr : ADDRESS) :
    Stalls n (parseObjDump k e vmaOffset startAddr endAddr) := by
  refine .bind (settles_parseElfName (by omega)) fun ⟨_, et⟩ => ?_
  dsimp only
  cases archType e.archSize et with
  | none => exact Settles.err.stalls
  | some arch =>
    exact .ite Settles.err.stalls <| .bind (.ite (.write nofun) (.pure _)) fun _ =>
      .bind (settles_parseSectionList (by omega) _ _) fun ⟨_, r⟩ =>
        .bind (settles_skipEols _ (by omega) false r) fun _ =>
      (stalls_tables hk _ _ _ _ _).bind_of fun _ _ _ ht hrun =>
        ⟨n, (run_length_le hrun).trans ht, (Settles.ite (.pure _) .err).stalls⟩

end Parser

end ObjDump

end TraceDecoder
