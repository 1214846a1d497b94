import TraceDecoder.ObjDumpOutput

/-!
# Reading the head of the output

The parse of the name of the file and of the sections.
-/

namespace TraceDecoder

open CString Dialogue

namespace ObjDump

namespace Parser

variable {α β : Type} {t u u' : List Char} {a : α} {b : β} {P Q : Prop}

/-! ### Reading with enough fuel -/

def Reading (d : ℕ → Parser α) (t : List Char) (a : α) (u : List Char) (fits : Prop) : Prop :=
  ∃ n, ∀ k, n ≤ k → Reads (d k) t a u fits

namespace Reading

variable {d : ℕ → Parser α} {f : ℕ → α → Parser β}

theorem of_reads {d : Parser α} (h : Reads d t a u P) : Reading (fun _ => d) t a u P :=
  ⟨0, fun _ _ => h⟩

theorem congr (hd : Reading d t a u P) (h : P ↔ Q) : Reading d t a u Q := by
  obtain ⟨n, hn⟩ := hd
  exact ⟨n, fun k hk => (hn k hk).congr h⟩

theorem bind (hd : Reading d t a u P) (hf : Reading (fun k => f k a) u b u' Q) :
    Reading (fun k => d k >>= f k) t b u' (P ∧ Q) := by
  obtain ⟨n, hn⟩ := hd
  obtain ⟨m, hm⟩ := hf
  exact ⟨max n m, fun k hk => (hn k (by omega)).bind (hm k (by omega))⟩

theorem step (hd : Reading d t a u True) (hf : Reading (fun k => f k a) u b u' Q) :
    Reading (fun k => d k >>= f k) t b u' Q := (hd.bind hf).congr (and_iff_right trivial)

theorem last (hd : Reading d t a u P) (hf : Reading (fun k => f k a) u b u' True) :
    Reading (fun k => d k >>= f k) t b u' P := (hd.bind hf).congr (and_iff_left trivial)

theorem succ (hd : Reading (fun k => d (k + 1)) t a u P) : Reading d t a u P := by
  obtain ⟨n, hn⟩ := hd
  refine ⟨n + 1, fun k hk => ?_⟩
  obtain ⟨k, rfl⟩ : ∃ i, k = i + 1 := ⟨k - 1, by omega⟩
  exact hn k (by omega)

theorem ite_pos {c : Prop} [Decidable c] {d' : ℕ → Parser α} (hc : c) (hd : Reading d t a u P) :
    Reading (fun k => if c then d k else d' k) t a u P := by
  simpa only [if_pos hc] using hd

theorem ite_neg {c : Prop} [Decidable c] {d' : ℕ → Parser α} (hc : ¬ c) (hd : Reading d' t a u P) :
    Reading (fun k => if c then d k else d' k) t a u P := by
  simpa only [if_neg hc] using hd

end Reading

/-- What does not depend on the fuel, in front of what does. -/
theorem Reads.before {d : Parser α} {f : ℕ → α → Parser β} (hd : Reads d t a u P)
    (hf : Reading (fun k => f k a) u b u' Q) :
    Reading (fun k => d >>= f k) t b u' (P ∧ Q) := (Reading.of_reads hd).bind hf

theorem Reads.andThen {d : Parser α} {f : ℕ → α → Parser β} (hd : Reads d t a u True)
    (hf : Reading (fun k => f k a) u b u' Q) : Reading (fun k => d >>= f k) t b u' Q :=
  (Reading.of_reads hd).step hf

/-! ### Words and empty lines -/

variable {room : ℕ} {r : ObjDumpTokenType × List Char} {w : List Char}

theorem ends_of_gap (gap : Gap) (t : List Char) :
    ∀ c ∈ (gap.chars ++ t).head?, endsString c = true := by
  obtain ⟨c, cs, hcs⟩ := List.exists_cons_of_ne_nil gap.ne
  rw [hcs]
  rintro d ⟨⟩
  rcases gap.blank c (by rw [hcs]; exact List.mem_cons_self) with rfl | rfl <;> rfl

theorem ends_of_char {c : Char} (h : endsString c = true) (t : List Char) :
    ∀ d ∈ (c :: t).head?, endsString d = true := by
  rintro d ⟨⟩
  exact h

theorem Reads.fits {d : Parser α} (h : Reads d t a u P) (hP : P) : Reads d t a u True :=
  h.congr (iff_of_true hP trivial)

theorem reads_eols (hlex : Reads (getNextLex room) t r u P) (hr : r.1 ≠ .eol) (hroom : 0 < room)
    {n k : ℕ} (hk : n < k)
    (eol : Bool) : ∃ eol', Reads (getNextLex room >>= skipEols room k eol) (emptyLines n t)
    (eol', r) u P := by
  induction n generalizing k eol with
  | zero =>
    obtain ⟨k, rfl⟩ : ∃ i, k = i + 1 := ⟨k - 1, by omega⟩
    refine ⟨eol, hlex.last ?_⟩
    rw [skipEols, if_neg hr]
    exact .pure _ u
  | succ n ih =>
    obtain ⟨k, rfl⟩ : ∃ i, k = i + 1 := ⟨k - 1, by omega⟩
    obtain ⟨eol', hrest⟩ := @ih k (by omega) true
    have hskip : skipEols room (k + 1) eol (.eol, []) = getNextLex room >>= skipEols room k true :=
      if_pos rfl
    refine ⟨eol', (lex_char room hroom rfl rfl).step ?_⟩
    rw [hskip]
    exact hrest

theorem reading_eols (hlex : Reads (getNextLex room) t r u P) (hr : r.1 ≠ .eol) (hroom : 0 < room)
    (n : ℕ) (eol : Bool)
    {f : ℕ → Bool × ObjDumpTokenType × List Char → Parser β}
    (hf : ∀ eol', Reading (fun k => f k (eol', r)) u b u' Q) :
    Reading (fun k => getNextLex room >>= fun r => skipEols room k eol r >>= f k)
      (emptyLines n t) b u' (P ∧ Q) := by
  obtain ⟨m, hm⟩ := hf true
  obtain ⟨m', hm'⟩ := hf false
  refine ⟨max (n + 1) (max m m'), fun k hk => ?_⟩
  obtain ⟨eol', hskip⟩ := reads_eols hlex hr hroom (show n < k by omega) eol
  dsimp only
  rw [← bind_assoc]
  cases eol' with
  | true => exact hskip.bind (hm k (by omega))
  | false => exact hskip.bind (hm' k (by omega))

theorem reading_scanName (hlex : Reads (getNextLex room) t (.string, w) u P) (hroom : 0 < room)
    (n : ℕ) :
    Reading (scanName room) (emptyLines n t) w u P := by
  induction n with
  | zero => exact .succ ((Reading.of_reads hlex).last (.of_reads (.pure w u)))
  | succ n ih =>
    have heol : Reads (getNextLex room) ('\n' :: emptyLines n t) (.eol, []) (emptyLines n t) True :=
      lex_char room hroom rfl rfl
    exact .succ (heol.andThen ih)

theorem reads_keywords {words : List (Gap × List Char)}
    (hplain : ∀ x ∈ words, Name x.2 ∧ x.2.length < room) (ht : ∀ c ∈ t.head?, endsString c = true) :
    Reads (keywords room (words.map Prod.snd)) (wordsText t words) () t True := by
  induction words with
  | nil => exact .pure () t
  | cons x words ih =>
    obtain ⟨gap, w⟩ := x
    obtain ⟨hword, hwords⟩ := List.forall_mem_cons.mp hplain
    have hends : ∀ c ∈ (wordsText t words).head?, endsString c = true := by
      cases words with
      | nil => exact ht
      | cons x words => exact ends_of_gap x.1 _
    exact ((blanks_keyword room gap.blank hword.1 hends).fits hword.2).step (ih hwords)

/-! ### The name of the file -/

theorem name_formatWord (wide : Bool) :
    Name (formatWord wide) ∧ (formatWord wide).length < 256 := by
  cases wide with
  | true => exact ⟨⟨by decide, by decide⟩, by decide⟩
  | false => exact ⟨⟨by decide, by decide⟩, by decide⟩

def formatType (wide : Bool) : ElfType := bif wide then .little64 else .little32

theorem elfFormat_formatWord (wide : Bool) :
    elfFormat (formatWord wide) = some (formatType wide) := by
  cases wide <;> decide

/-- The part of `parseElfName` behind the colon. -/
def formatOf (elfName : List Char) : Parser (List Char × ElfType) := do
  keyword 256 "file".toList
  keyword 256 "format".toList
  let lex ← expect 256 .string
  match elfFormat lex with
  | some et => pure (elfName, et)
  | none => err

theorem reads_formatOf (elfName : List Char) (l : FileLine) (rest : List Char) :
    Reads (formatOf elfName) (l.behindColon rest) (elfName, formatType l.wide)
      ('\n' :: rest) True := by
  have hname : Name "file".toList ∧ "file".toList.length < 256 :=
    ⟨⟨by decide, by decide⟩, by decide⟩
  have hformat : Name "format".toList ∧ "format".toList.length < 256 :=
    ⟨⟨by decide, by decide⟩, by decide⟩
  obtain ⟨hword, hshort⟩ := name_formatWord l.wide
  refine ((blanks_keyword 256 (l.gaps 0).blank hname.1 (ends_of_gap _ _)).fits hname.2).step
    (((blanks_keyword 256 (l.gaps 1).blank hformat.1 (ends_of_gap _ _)).fits hformat.2).step
    (((blanks_expect_word 256 (l.gaps 2).blank hword (ends_of_char rfl _)).fits hshort).step ?_))
  rw [elfFormat_formatWord]
  exact .pure _ _

theorem reads_isWSLookahead (l : FileLine) (rest : List Char) :
    Reads isWSLookahead (l.behindColon rest) true (l.behindColon rest) True := by
  obtain ⟨c, cs, hcs⟩ := List.exists_cons_of_ne_nil (l.gaps 0).ne
  have hc := (l.gaps 0).blank c (by rw [hcs]; exact List.mem_cons_self)
  rw [FileLine.behindColon, hcs]
  refine ⟨?_, iff_of_true (List.forall_mem_nil _) trivial⟩
  rcases hc with rfl | rfl <;> rfl

theorem reading_parseElfName (l : FileLine) (rest : List Char) :
    Reading parseElfName (l.textThen rest) (driveText l.drive ++ l.name, formatType l.wide)
      ('\n' :: rest) l.Fits := by
  have hzero : 0 < 256 := by decide
  have hlook := reads_isWSLookahead l rest
  set text := l.behindColon rest with htext
  have hcolon (t : List Char) : Reads (expect 256 .colon) (':' :: t) [] t True :=
    expect_char 256 hzero rfl rfl
  cases hdrive : l.drive with
  | none =>
    have htextThen : l.textThen rest = emptyLines l.before (l.name ++ ':' :: text) := by
      rw [FileLine.textThen, hdrive, htext]
      rfl
    have hfits : l.name.length < 256 ↔ l.Fits := by
      rw [FileLine.Fits, hdrive]
      exact Iff.rfl
    rw [htextThen]
    have hpath : Reading (fun k => bif true then pure l.name else drivePath k l.name) text l.name
        text True :=
      .of_reads (.pure l.name text)
    exact ((reading_scanName (lex_word 256 l.plain (ends_of_char rfl _)) hzero l.before).last
      ((hcolon text).andThen
        (hlook.andThen (hpath.step (.of_reads (reads_formatOf l.name l rest)))))).congr hfits
  | some d =>
    have htextThen : l.textThen rest = emptyLines l.before
        ([d] ++ ':' :: (l.name ++ ':' :: text)) := by
      rw [FileLine.textThen, hdrive, htext]
      rfl
    have hfits : l.name.length < 256 ∧ l.name.length + 2 < 256 ↔ l.Fits := by
      rw [FileLine.Fits, hdrive]
      exact ⟨fun h => h.2, fun h => ⟨Nat.lt_of_succ_lt (Nat.lt_of_succ_lt h), h⟩⟩
    have hletter : Reads (getNextLex 256) ([d] ++ ':' :: (l.name ++ ':' :: text)) (.string, [d])
        (':' :: (l.name ++ ':' :: text)) True :=
          (lex_word 256 (name_letter (l.letter d hdrive)) (ends_of_char rfl _)).fits
            (show 1 < 256 by decide)
    have hnolook : Reads isWSLookahead (l.name ++ ':' :: text) false (l.name ++ ':' :: text)
        True := by
      refine ⟨?_, iff_of_true (List.forall_mem_nil _) trivial⟩
      obtain ⟨c, cs, hcs⟩ := List.exists_cons_of_ne_nil l.plain.ne
      have hc :=
        (Text.charToken_of_endsString (l.plain.plain c (by rw [hcs]; exact List.mem_cons_self)).1).2
      have hblank : (c == ' ' || c == '\t') = false := by
        rw [Bool.or_eq_false_iff, Bool.or_eq_false_iff] at hc
        rw [hc.1.1, hc.2]
        rfl
      rw [hcs]
      exact congrArg (fun ws => EStateM.Result.ok ws _) hblank
    have hdrivePath : Reading (fun k => drivePath k [d]) (l.name ++ ':' :: text)
        ([d] ++ ':' :: l.name) text (l.name.length < 256 ∧ l.name.length + 2 < 256) := by
      refine (reading_scanName (lex_word 256 l.plain (ends_of_char rfl _)) hzero 0).bind ?_
      refine .of_reads (((Reads.write (.join 256 ([d] ++ [':'])) _).fits
        (show 2 < 256 by decide)).step ((Reads.write _ _).last ?_))
      exact (hcolon text).step (.pure _ _)
    rw [htextThen]
    exact ((reading_scanName hletter hzero l.before).step ((hcolon _).andThen (hnolook.andThen
      (hdrivePath.last (.of_reads (reads_formatOf ([d] ++ ':' :: l.name) l rest)))))).congr hfits

/-! ### The sections -/

def flagBits : SectFlag → BitVec 32
  | .contents => Section.sect_CONTENTS
  | .alloc => Section.sect_ALLOC
  | .load => Section.sect_LOAD
  | .readonly => Section.sect_READONLY
  | .data => Section.sect_DATA
  | .code => Section.sect_CODE
  | .threadLocal => Section.sect_THREADLOCAL
  | .debugging => Section.sect_DEBUGGING
  | .octets => Section.sect_OCTETS

theorem sectFlag_word (flag : SectFlag) : sectFlag flag.word = some (flagBits flag) := by
  cases flag <;> decide

theorem name_flag (flag : SectFlag) : Name flag.word ∧ flag.word.length < 256 := by
  cases flag <;> exact ⟨⟨by decide, by decide⟩, by decide⟩

def allBits (v : BitVec 32) (flags : List SectFlag) : BitVec 32 :=
  flags.foldl (fun v flag => v ||| flagBits flag) v

theorem code_allBits {flags : List SectFlag} {v : BitVec 32}
    (h : v &&& Section.sect_CODE ≠ 0 ∨ SectFlag.code ∈ flags) :
    allBits v flags &&& Section.sect_CODE ≠ 0 := by
  induction flags generalizing v with
  | nil => exact h.resolve_right List.not_mem_nil
  | cons flag flags ih =>
    refine ih ?_
    have hor (w : BitVec 32) : (v ||| w) &&& Section.sect_CODE = v &&& Section.sect_CODE ||| w &&&
        Section.sect_CODE := by
      ext i hi
      simp only [BitVec.getElem_and, BitVec.getElem_or, Bool.and_or_distrib_right]
    have hzero {x y : BitVec 32} (hxy : x ||| y = 0) : x = 0 ∧ y = 0 := BitVec.or_eq_zero_iff.mp hxy
    rcases h with h | h
    · exact .inl fun hall => h (hzero ((hor _).symm.trans hall)).1
    · rcases List.mem_cons.mp h with rfl | h
      · refine .inl fun hall => absurd (hzero ((hor _).symm.trans hall)).2 (by decide)
      · exact .inr h

theorem reading_sectionFlags {ws rest : List Char} {flags : List (List Char × SectFlag)}
    (hws : ∀ c ∈ ws, IsBlank c)
    (hblanks : ∀ x ∈ flags, ∀ c ∈ x.1, IsBlank c) (flag : SectFlag) (v : BitVec 32) :
    Reading (fun k => sectionFlags k v)
      (ws ++ (flag.word ++ SectFlag.moreText ('\n' :: rest) flags))
      (allBits v (flag :: flags.map Prod.snd), .eol, []) rest True := by
  induction flags generalizing ws flag v with
  | nil =>
    refine .succ ((((blanks_expect_word 256 hws (name_flag flag).1 (ends_of_char rfl _)).fits
      (name_flag flag).2)).andThen ?_)
    rw [sectFlag_word]
    exact (lex_char 256 (by decide) rfl rfl).andThen (.of_reads (.pure _ _))
  | cons x flags ih =>
    obtain ⟨hx, hblanks⟩ := List.forall_mem_cons.mp hblanks
    refine .succ ((((blanks_expect_word 256 hws (name_flag flag).1 (ends_of_char rfl _)).fits
      (name_flag flag).2)).andThen ?_)
    have hcomma (t : List Char) : Reads (getNextLex 256) (',' :: t) (.comma, []) t True :=
      lex_char 256 (by decide) rfl rfl
    rw [sectFlag_word]
    exact (hcomma _).andThen (ih hx hblanks x.2 _)

theorem lookup_alignWord : ∀ align : Fin 17, alignments.lookup (alignWord align) = some
    (1 <<< min (align : ℕ) 8) := by
  decide

theorem name_alignWord :
    ∀ align : Fin 17, (∀ c ∈ alignWord align, endsString c = false ∧ c ≠ '\x00') ∧
    alignWord align ≠ [] ∧ (alignWord align).length < 256 := by
  decide

variable {vmaOffset : ADDRESS}

theorem reading_parseSection (s : SectionEntry) (rest : List Char) : ∃ sp : Option Section,
    (s.Kept → ∃ x ∈ sp, x.name = s.name) ∧
      Reading (fun k => parseSection k vmaOffset) (s.textThen rest) (sp, .eol, []) rest s.Fits := by
  have hzero : 0 < 256 := by decide
  obtain ⟨halign, hne, hshort⟩ := name_alignWord s.align
  have hindent : ∀ c ∈ s.indent, IsBlank c := fun c hc => s.blanks.1 c (List.mem_append_left _ hc)
  have hflagIndent : ∀ c ∈ s.flagIndent, IsBlank c :=
    fun c hc => s.blanks.1 c (List.mem_append_right _ hc)
  set flags := allBits 0 (s.flag :: s.flags.map Prod.snd) with hflags
  set kept : Prop := flags &&& Section.sect_CODE ≠ 0 ∨ s.name = ".comment".toList with hkept
  let sp : Section := {
    name := s.name
    startAddr := BitVec.ofNat 64 s.vma.value
    endAddr :=
      BitVec.ofNat 64 s.vma.value + ((BitVec.ofNat 64 s.size.value).setWidth 32).setWidth 64 - 1
    vmaOffset := vmaOffset
    flags := flags
    size := (BitVec.ofNat 64 s.size.value).setWidth 32
    offset := (BitVec.ofNat 64 s.offset.value).setWidth 32
    align := 1 <<< min (s.align : ℕ) 8 }
  -- what is behind the flags
  have hend : Reads (if kept then do
        write (.copy 256 s.name)
        write (.copy 256 [])
        pure (some sp, ObjDumpTokenType.eol, [])
      else do
        write (.copy 256 [])
        pure (none, .eol, []) : Parser (Option Section × ObjDumpTokenType × List Char)) rest
      (if kept then some sp else none, .eol, []) rest (kept → s.name.length < 256) := by
    have hpure (x : Option Section) : Reads (do
        write (.copy 256 [])
        pure (x, ObjDumpTokenType.eol, []) : Parser (Option Section × ObjDumpTokenType × List Char))
          rest (x, .eol, []) rest
        True := ((Reads.write (.copy 256 []) rest).fits hzero).step
          (.pure (x, ObjDumpTokenType.eol, []) rest)
    by_cases h : kept
    · rw [if_pos h, if_pos h]
      exact ((Reads.write (.copy 256 s.name) rest).last (hpure (some sp))).congr
        ⟨fun hname _ => hname, fun hname => hname h⟩
    · rw [if_neg h, if_neg h]
      exact (hpure none).congr (iff_of_true trivial fun h' => absurd h' h)
  refine ⟨if kept then some sp else none, fun hcode => ?_, ?_⟩
  · have h : kept := hcode.imp_left fun hmem => code_allBits (.inr hmem)
    rw [if_pos h]
    exact ⟨sp, rfl, rfl⟩
  · have hindex : ¬ (ObjDumpTokenType.string ≠ .string ∨ isStringADecNumber s.index.digits =
        none) := by
      rw [isStringADecNumber_numeral]
      simp
    have heol (t : List Char) : Reads (expect 256 .eol) ('\n' :: t) [] t True :=
      expect_char 256 hzero rfl rfl
    have hfits : s.index.digits.length < 256 ∧ s.name.length < 256 ∧ s.size.digits.length < 256 ∧
        s.vma.digits.length < 256 ∧ s.lma.digits.length < 256 ∧ s.offset.digits.length < 256 ∧
          (kept → s.name.length < 256) ↔ s.Fits :=
      ⟨fun ⟨h₁, h₂, h₃, h₄, h₅, h₆, _⟩ => ⟨h₁, h₂, h₃, h₄, h₅, h₆⟩,
        fun ⟨h₁, h₂, h₃, h₄, h₅, h₆⟩ => ⟨h₁, h₂, h₃, h₄, h₅, h₆, fun _ => h₂⟩⟩
    refine Reading.congr ((blanks_lex_word 256 hindent (name_digits (by decide) s.index)
      (ends_of_gap _ _)).before (.ite_neg hindex ?_)) hfits
    refine (blanks_expect_word 256 (s.gaps 0).blank s.plain (ends_of_gap _ _)).before
      ((blanks_hexNumber 256 s.size (s.gaps 1).blank (ends_of_gap _ _)).before
      ((blanks_hexNumber 256 s.vma (s.gaps 2).blank (ends_of_gap _ _)).before
      ((blanks_hexNumber 256 s.lma (s.gaps 3).blank (ends_of_gap _ _)).before
      ((blanks_hexNumber 256 s.offset (s.gaps 4).blank (ends_of_gap _ _)).before
      (((blanks_expect_word 256 (s.gaps 5).blank ⟨hne, halign⟩ (ends_of_char rfl _)).fits
        hshort).andThen ?_)))))
    rw [lookup_alignWord]
    exact (heol _).andThen ((reading_sectionFlags hflagIndent s.blanks.2 s.flag 0).step
      (.of_reads hend))

/-- The word with which something else begins is not taken for the number of a section. -/
structure TableWord (w : List Char) : Prop extends Name w where
  short : w.length < 256
  not_number : isStringADecNumber w = none

theorem reading_sections {w t : List Char} (hw : TableWord w)
    (ht : ∀ c ∈ t.head?, endsString c = true)
    (ss : List SectionEntry) (after : ℕ) (lst : List Section) :
    ∃ lst', lst ⊆ lst' ∧ (∀ s ∈ ss, s.Kept → ∃ sp ∈ lst', sp.name = s.name) ∧
      Reading (fun k => sections vmaOffset k lst) (sectionsText (emptyLines after (w ++ t)) ss)
        (lst', .string, w) t (∀ s ∈ ss, s.Fits) := by
  induction ss generalizing lst with
  | nil =>
    refine ⟨lst, List.Subset.refl lst, nofun, Reading.congr ?_ (iff_of_true trivial nofun)⟩
    induction after with
    | zero =>
      have hnone : ObjDumpTokenType.string ≠ .string ∨ isStringADecNumber w = none :=
        .inr hw.not_number
      have hsection : Reading (fun k => parseSection k vmaOffset) (w ++ t) (none, .string, w)
          t True := by
        exact ((lex_word 256 hw.toName ht).fits hw.short).andThen (.ite_pos hnone <| .of_reads <|
          ((Reads.write (.copy 256 w) t).fits hw.short).step
          (.pure (none, ObjDumpTokenType.string, w) t))
      exact .succ (hsection.step (.of_reads (.pure (lst, ObjDumpTokenType.string, w) t)))
    | succ after ih =>
      have hsection : Reading (fun k => parseSection k vmaOffset)
          ('\n' :: emptyLines after (w ++ t)) (none, .eol, []) (emptyLines after (w ++ t))
            True := by
        have heol : ObjDumpTokenType.eol ≠ .string ∨ isStringADecNumber [] = none := .inl nofun
        have hlex : Reads (getNextLex 256) ('\n' :: emptyLines after (w ++ t)) (.eol, [])
            (emptyLines after (w ++ t)) True :=
          lex_char 256 (by decide) rfl rfl
        exact hlex.andThen (.ite_pos heol <| .of_reads <|
          ((Reads.write (.copy 256 []) _).fits (by decide)).step
          (.pure (none, ObjDumpTokenType.eol, []) _))
      exact .succ (hsection.step ih)
  | cons s ss ih =>
    obtain ⟨sp, hsp, hread⟩ :=
      @reading_parseSection vmaOffset s (sectionsText (emptyLines after (w ++ t)) ss)
    obtain ⟨lst', hlst, hkept, hreads⟩ := ih (sp.toList ++ lst)
    refine ⟨lst', fun x hx => hlst (List.mem_append_right _ hx), List.forall_mem_cons.mpr
      ⟨fun h => ?_, hkept⟩, Reading.congr (.succ (hread.bind hreads))
        (by rw [List.forall_mem_cons])⟩
    obtain ⟨x, hx, hname⟩ := hsp h
    exact ⟨x, hlst (List.mem_append_left _ (Option.mem_toList.mpr hx)), hname⟩

theorem columnWords_name : ∀ w ∈ columnWords, (∀ c ∈ w, endsString c = false ∧ c ≠ '\x00') ∧
    w ≠ [] ∧ w.length < 256 := by
  decide

theorem reading_parseSectionList {w t : List Char} (hw : TableWord w)
    (ht : ∀ c ∈ t.head?, endsString c = true)
    (ss : List SectionEntry) (before after : ℕ) {columns : List (Gap × List Char)}
    (hcolumns : columns.map Prod.snd = columnWords) :
    ∃ lst, (∀ s ∈ ss, s.Kept → ∃ sp ∈ lst, sp.name = s.name) ∧
      Reading (fun k => parseSectionList k [] vmaOffset)
        (emptyLines before ("Sections".toList ++ ':' :: '\n' ::
        ("Idx".toList ++ wordsText ('\n' :: sectionsText (emptyLines after (w ++ t)) ss) columns)))
        (lst, .string, w) t (∀ s ∈ ss, s.Fits) := by
  have hzero : 0 < 256 := by decide
  obtain ⟨lst, -, hkept, hread⟩ := @reading_sections vmaOffset w t hw ht ss after []
  have hsections : Name "Sections".toList ∧ "Sections".toList.length < 256 :=
    ⟨⟨by decide, by decide⟩, by decide⟩
  have hidx : Name "Idx".toList ∧ "Idx".toList.length < 256 := ⟨⟨by decide, by decide⟩, by decide⟩
  have hword : ¬ (ObjDumpTokenType.string ≠ .string ∨ strcasecmp "Sections".toList
    "Sections".toList = false) := by decide
  have hwords : ∀ x ∈ columns, Name x.2 ∧ x.2.length < 256 := fun x hx => by
    obtain ⟨hplain, hne, hshort⟩ := columnWords_name x.2 (hcolumns ▸ List.mem_map_of_mem hx)
    exact ⟨⟨hne, hplain⟩, hshort⟩
  have heol (t : List Char) : Reads (expect 256 .eol) ('\n' :: t) [] t True :=
    expect_char 256 hzero rfl rfl
  refine ⟨lst, hkept, ?_⟩
  have hcolumnsRead :=
    reads_keywords hwords (@ends_of_char '\n' rfl (sectionsText (emptyLines after (w ++ t)) ss))
  rw [hcolumns] at hcolumnsRead
  have hheading : Reads (keywords 256 expected) ("Idx".toList ++
      wordsText ('\n' :: sectionsText (emptyLines after (w ++ t)) ss) columns) ()
        ('\n' :: sectionsText (emptyLines after (w ++ t)) ss) True := by
    obtain ⟨x, xs, hcons⟩ : ∃ x xs, columns = x :: xs := by
      cases columns with
      | nil => cases hcolumns
      | cons x xs => exact ⟨x, xs, rfl⟩
    have hends :
        ∀ c ∈ (wordsText ('\n' :: sectionsText (emptyLines after (w ++ t)) ss) columns).head?,
        endsString c = true := by
      rw [hcons]
      exact ends_of_gap x.1 _
    exact ((@blanks_keyword [] _ _ 256 nofun hidx.1 hends).fits hidx.2).step hcolumnsRead
  refine Reading.congr (reading_eols ((lex_word 256 hsections.1 (ends_of_char rfl _)).fits
    hsections.2) nofun hzero before false fun eol => .ite_neg hword ?_) (and_iff_right trivial)
  have hcopy : Reading (fun _ => do
      write (.copy 256 w)
      pure (lst, ObjDumpTokenType.string, w) : ℕ → Parser (List Section × ObjDumpTokenType ×
        List Char)) t
      (lst, .string, w) t True :=
    .of_reads (((Reads.write (.copy 256 w) t).fits hw.short).step
      (.pure (lst, ObjDumpTokenType.string, w) t))
  exact (expect_char 256 hzero rfl rfl).andThen
    ((heol _).andThen (hheading.andThen ((heol _).andThen (hread.last hcopy))))

end Parser

end ObjDump

end TraceDecoder
