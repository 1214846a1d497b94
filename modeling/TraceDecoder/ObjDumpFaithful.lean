import TraceDecoder.ObjDumpArrays
import TraceDecoder.ObjDumpReturns

/-!
# Faithful listings

The parse of a listing that can be read, and for which listings the section has then recorded what
the listing says.
-/

namespace TraceDecoder

open CString Dialogue

namespace ObjDump

/-! ### The parse of a listing -/

def sectionKey (eType : ElfType) (startAddr : ADDRESS) (name : List Char) : List Char :=
  if Parser.isBlob eType then Parser.blobName startAddr else name

def disassemblyText (name rest : List Char) : List Char :=
  [' '] ++ ("of".toList ++
    ([' '] ++ ("section".toList ++ ([' '] ++ (name ++ ':' :: '\n' :: rest)))))

theorem getSectionByName_update {key : List Char} {lst : List Section} {sp sp' : Section}
    (hfound : Section.getSectionByName key lst = some sp) (hname : sp'.name = sp.name) :
    Section.getSectionByName key (sp'.update lst) = some sp' := by
  unfold Section.getSectionByName at hfound ⊢
  have hkey : sp.name = key := by simpa using List.find?_some hfound
  induction lst with
  | nil => cases hfound
  | cons sp₁ lst ih =>
    rw [Section.update, hname, hkey]
    by_cases hsp₁ : sp₁.name = key
    · rw [if_pos hsp₁]
      exact List.find?_cons_of_pos (decide_eq_true (hname.trans hkey))
    · rw [List.find?_cons_of_neg (by simpa using hsp₁)] at hfound
      rw [if_neg hsp₁, List.find?_cons_of_neg (by simpa using hsp₁)]
      exact ih hfound

namespace Parser

variable {eType : ElfType} {lst : List Section} {root : SrcFileRoot} {startAddr : ADDRESS}
    {name : List Char} {sp : Section}

theorem sectionName_reads (heType : eType ≠ .unknown) (t : List Char) :
    Reads (sectionName eType startAddr name) t (sectionKey eType startAddr name) t True := by
  have hcopy : (Note.copy 1024 ((blobName startAddr).take 1023)).Fits ↔ True :=
    iff_of_true (Nat.lt_succ_of_le (List.length_take_le _ _)) trivial
  cases eType with
  | unknown => exact absurd rfl heType
  | little64 => exact .pure _ t
  | little32 => exact .pure _ t
  | binary32 => exact ((Reads.write _ t).congr hcopy).step (.pure _ t)
  | binary64 => exact ((Reads.write _ t).congr hcopy).step (.pure _ t)

theorem header_goes (hname : Name name) (heType : eType ≠ .unknown)
    (hfound : Section.getSectionByName (sectionKey eType startAddr name) lst = some sp) (fuel : ℕ)
    (t : List Char) :
    Goes (parseDisassemblyList fuel eType lst root startAddr) (disassemblyText name t)
      (listing fuel { sp := sp.allocate, srcFileRoot := root } (.eol, []) >>= fun x =>
        pure (x.1.sp.update lst, x.1.srcFileRoot, x.2)) t (name.length < 1024) := by
  have hof : Name "of".toList := ⟨by decide, by decide⟩
  have hsection : Name "section".toList := ⟨by decide, by decide⟩
  have hofFits : "of".toList.length < 1024 ↔ True := iff_of_true (by decide) trivial
  have hsectionFits : "section".toList.length < 1024 ↔ True := iff_of_true (by decide) trivial
  have hcolon : Reads (expect 1024 .colon) (':' :: '\n' :: t) [] ('\n' :: t) True :=
    expect_char 1024 (by decide) rfl rfl
  have heol : Reads (expect 1024 .eol) ('\n' :: t) [] t True := expect_char 1024 (by decide) rfl rfl
  refine ((blanks_keyword 1024 isBlank_singleton hof (by rintro c ⟨⟩; rfl)).congr hofFits).goesOn
    (((blanks_keyword 1024 isBlank_singleton hsection (by rintro c ⟨⟩; rfl)).congr
      hsectionFits).goesOn
    (Goes.congr (((blanks_expect_word 1024 isBlank_singleton hname (by rintro c ⟨⟩; rfl)).goes
      _).trans
    ((sectionName_reads heType _).goesOn ?_)) (and_iff_left trivial)))
  rw [hfound]
  exact hcolon.goesOn (heol.goesOn (.refl _ t))

theorem parse_listing (hname : Name name) (heType : eType ≠ .unknown)
    (hfound : Section.getSectionByName (sectionKey eType startAddr name) lst = some sp)
    {lines : List ListingLine} (hread : Legible true lines) (tail : Tail) :
    ∃ n, ∀ fuel, n ≤ fuel → Reads (parseDisassemblyList fuel eType lst root startAddr)
      (disassemblyText name (listingText tail.text lines))
        ((lines.foldl Listing.enter { sp := sp.allocate, srcFileRoot := root }).sp.update lst,
          (lines.foldl Listing.enter { sp := sp.allocate, srcFileRoot := root }).srcFileRoot,
            tail.token) tail.rest
      (name.length < 1024 ∧ ∀ l ∈ lines, l.Fits) := by
  obtain ⟨n, hn⟩ := ends_listing tail hread { sp := sp.allocate, srcFileRoot := root }
  refine ⟨n + 2, fun fuel hfuel => ?_⟩
  obtain ⟨k, rfl⟩ : ∃ k, fuel = k + 2 := ⟨fuel - 2, by omega⟩
  have hlisting : Reads (listing (k + 2) { sp := sp.allocate, srcFileRoot := root } (.eol, []))
      (listingText tail.text lines) (lines.foldl Listing.enter { sp := sp.allocate, srcFileRoot :=
        root }, tail.token) tail.rest (∀ l ∈ lines, l.Fits) := by
    rw [listing_succ, skipEols, if_pos rfl, Dialogue.bind_assoc]
    exact hn k (k + 1) (by omega) (by omega)
  exact (header_goes hname heType hfound (k + 2) _).reads (hlisting.last (.pure _ _))

def RecordsListing (eType : ElfType) (lst : List Section) (root : SrcFileRoot) (startAddr : ADDRESS)
    (name : List Char) (sp : Section)
    (lines : List ListingLine) (tail : Tail) (s : ObjDump) : Prop :=
  ∃ fuel lst' root' s' sp', (parseDisassemblyList fuel eType lst root startAddr).run answer s =
    .ok (lst', root', tail.token) s' ∧ s'.Holds tail.rest ∧
      Section.getSectionByName (sectionKey eType startAddr name) lst' = some sp' ∧
      Recorded sp lines sp'

theorem recordsListing_iff {lines : List ListingLine} {tail : Tail} {s : ObjDump}
    (hs : s.Holds (disassemblyText name (listingText tail.text lines))) (hname : Word 1024 name)
    (heType : eType ≠ .unknown)
    (hfound : Section.getSectionByName (sectionKey eType startAddr name) lst = some sp)
    (hread : Readable true lines) (hinside : ∀ x ∈ instructions none lines, x.1.Inside sp) :
    RecordsListing eType lst root startAddr name sp lines tail s ↔ Recorded sp lines
      (enterAll sp.allocate none lines) := by
  have hsp := foldl_enter lines { sp := sp.allocate, srcFileRoot := root } none rfl rfl hinside
  obtain ⟨fuel, hparse⟩ :=
    @parse_listing eType lst root startAddr name sp hname.toName heType hfound lines hread.1 tail
  have hrun := (hparse fuel le_rfl).run
  rw [hsp] at hrun
  have hfound' := @getSectionByName_update _ _ _ (enterAll sp.allocate none lines) hfound rfl
  constructor
  · rintro ⟨k, lst', root', s', sp', hrun', -, hlst', hrecorded⟩
    have htext := run_text (parseDisassemblyList k eType lst root startAddr) s _ hs
    rw [hrun'] at htext
    cases hk : (parseDisassemblyList k eType lst root startAddr).run Text.answer
      (disassemblyText name (listingText tail.text lines)) with
    | error e t =>
      rw [hk] at htext
      exact htext.elim
    | ok a t =>
      rw [hk] at htext
      have hk' :=
        (more_parseDisassemblyList (Nat.le_max_left k fuel) eType lst root startAddr).run_eq
          (disassemblyText name (listingText tail.text lines)) (by rw [hk]; exact nofun)
      have hfuel' :=
        (more_parseDisassemblyList (Nat.le_max_right k fuel) eType lst root startAddr).run_eq
          (disassemblyText name (listingText tail.text lines)) (by rw [hrun]; exact nofun)
      rw [hfuel', hrun, hk] at hk'
      obtain ⟨rfl, -⟩ := htext
      cases hk'
      rw [hfound'] at hlst'
      cases hlst'
      exact hrecorded
  · intro hrecorded
    have htext := run_text (parseDisassemblyList fuel eType lst root startAddr) s _ hs
    rw [hrun] at htext
    cases hk : (parseDisassemblyList fuel eType lst root startAddr).run answer s with
    | error e t =>
      rw [hk] at htext
      exact htext.elim
    | ok a t =>
      rw [hk] at htext
      obtain ⟨rfl, hholds⟩ := htext
      exact ⟨fuel, _, _, t, _, hk, hholds, hfound', hrecorded⟩

/-- **Faithful listings**: a listing that can be read is recorded as it is if and
only if all of it is kept. -/
theorem recordsListing_iff_kept {lines : List ListingLine} {tail : Tail} {s : ObjDump}
    (hs : s.Holds (disassemblyText name (listingText tail.text lines))) (hname : Word 1024 name)
    (heType : eType ≠ .unknown)
    (hfound : Section.getSectionByName (sectionKey eType startAddr name) lst = some sp)
    (hnew : Unlisted sp)
    (hread : Readable true lines) (hinside : ∀ x ∈ instructions none lines, x.1.Inside sp) :
    RecordsListing eType lst root startAddr name sp lines tail s ↔ Kept sp lines :=
  (recordsListing_iff hs hname heType hfound hread hinside).trans
    (recorded_iff_kept hnew lines hinside)

def driveSource (d : Char) (hd : d.isAlpha = true) : SourceLine where
  drive := some d
  path := "/a.c".toList
  line := ⟨['7'], by decide, by decide⟩
  discriminator := none
  letter c hc := by cases hc; exact hd
  rooted := nofun

def driveInst : InstLine where
  indent := []
  address := ⟨"1000".toList, by decide, by decide⟩
  gap := ['\t']
  encoding := ⟨"0001".toList, by decide, by decide⟩
  tab := ['\t']
  text := "nop".toList
  blanks := by decide
  size := by decide
  apart := by decide
  text_start := by rintro c ⟨⟩; decide
  text_chars := by decide

def wideInst : InstLine where
  indent := [' ']
  address := ⟨"1002".toList, by decide, by decide⟩
  gap := ['\t']
  encoding := ⟨"00000013".toList, by decide, by decide⟩
  tab := ['\t']
  text := "addi zero,zero,0".toList
  blanks := by decide
  size := by decide
  apart := by decide
  text_start := by rintro c ⟨⟩; decide
  text_chars := by decide

def driveLines (d : Char) (hd : d.isAlpha = true) : List ListingLine :=
  [.label ⟨"1000".toList, by decide, by decide⟩ "main".toList, .source (driveSource d hd),
    .inst driveInst, .blank, .func "f".toList, .inst wideInst]

def driveSection : Section where
  name := ".text".toList
  startAddr := 0x1000
  endAddr := 0x1005
  vmaOffset := 0
  flags := Section.sect_CODE
  size := 6
  offset := 0
  align := 2

theorem driveLines_readable (d : Char) (hd : d.isAlpha = true) :
    Readable true (driveLines d hd) := by
  have hslash : '/' ∈ "/a.c".toList := by decide
  have hmain : Name "main".toList := ⟨by decide, by decide⟩
  have hpath : Name "/a.c".toList := ⟨by decide, by decide⟩
  have hfunc : FuncName true "f".toList := ⟨⟨by decide, by decide⟩, by decide, by decide, by decide⟩
  have hsource : (driveSource d hd).Fits :=
    ⟨show 6 < 1024 by decide, Nat.lt_of_lt_of_le Nat.one_lt_two (by decide), nofun⟩
  have hlabel : (ListingLine.label ⟨"1000".toList, by decide, by decide⟩ "main".toList).Fits :=
    ⟨by decide, by decide⟩
  have hinsts : driveInst.Fits ∧ wideInst.Fits := ⟨⟨by decide, by decide⟩, ⟨by decide, by decide⟩⟩
  refine ⟨⟨hmain, ⟨hpath, fun _ => ⟨'/', hslash, by decide⟩⟩, hfunc, trivial⟩, ?_⟩
  exact List.forall_mem_cons.mpr ⟨hlabel, List.forall_mem_cons.mpr
    ⟨hsource, List.forall_mem_cons.mpr ⟨hinsts.1, List.forall_mem_cons.mpr
      ⟨trivial, List.forall_mem_cons.mpr ⟨show 1 < 1024 by decide, List.forall_mem_singleton.mpr
        hinsts.2⟩⟩⟩⟩⟩

theorem driveLines_inside (d : Char) (hd : d.isAlpha = true) :
    ∀ x ∈ instructions none (driveLines d hd), x.1.Inside driveSection := by
  have hinside : driveInst.Inside driveSection ∧ wideInst.Inside driveSection :=
    ⟨⟨by decide, by decide⟩, ⟨by decide, by decide⟩⟩
  exact List.forall_mem_cons.mpr ⟨hinside.1, List.forall_mem_singleton.mpr hinside.2⟩

theorem driveText_holds (d : Char) (hd : d.isAlpha = true) :
    (init 0 []
    ((Division.single (disassemblyText ".text".toList
      (listingText Tail.eof.text (driveLines d hd)))).chunks.map some)).Holds
      (disassemblyText ".text".toList (listingText Tail.eof.text (driveLines d hd))) :=
  holds_init 0 [] _

theorem driveLines_kept (d : Char) (hd : d.isAlpha = true) :
    Kept driveSection (driveLines d hd) ↔ 'A' ≤ d ∧ d ≤ 'F' := by
  have hplaces : driveInst.place driveSection.startAddr = 0 ∧
    wideInst.place driveSection.startAddr = 1 := by decide
  have hentries : entries driveSection.startAddr id none (driveLines d hd) =
      [(0, driveInst, some (driveSource d hd)), (1, wideInst, none)] := by
    simp only [entries, driveLines, instructions, List.map_cons, List.map_nil, hplaces.1, hplaces.2]
    rfl
  constructor
  · intro h
    exact (h.source 0 _ (by rw [hentries]; rfl) _ rfl).drive d rfl
  · intro h
    refine ⟨fun _ => by decide, fun i x hx l hl => ?_⟩
    have hmem := exists_of_lastAt hx
    rw [hentries] at hmem
    rcases List.mem_cons.mp hmem with hfirst | hsecond
    · cases hfirst
      cases hl
      exact ⟨fun c hc => by cases hc; exact h, (show 7 < 2 ^ 32 by decide)⟩
    · cases List.mem_singleton.mp hsecond
      cases hl

theorem drive_c_recorded : RecordsListing .little32 [driveSection] ⟨[]⟩ 0 ".text".toList
    driveSection (driveLines 'C' (by decide)) .eof
    (init 0 [] ((Division.single
      (disassemblyText ".text".toList
        (listingText Tail.eof.text (driveLines 'C' (by decide))))).chunks.map some)) :=
  (@recordsListing_iff_kept .little32 [driveSection] ⟨[]⟩ 0 ".text".toList driveSection
    (driveLines 'C' (by decide)) .eof _ (driveText_holds 'C' (by decide))
      ⟨⟨by decide, by decide⟩, by decide⟩ nofun rfl ⟨rfl, rfl, rfl, rfl⟩
    (driveLines_readable 'C' (by decide)) (driveLines_inside 'C' (by decide))).mpr
      ((driveLines_kept 'C' (by decide)).mpr (by decide))

theorem drive_z_not_recorded : ¬ ∀ (eType : ElfType) (lst : List Section) (root : SrcFileRoot)
    (startAddr : ADDRESS) (name : List Char)
    (sp : Section) (lines : List ListingLine) (tail : Tail) (s : ObjDump),
    s.Holds (disassemblyText name (listingText tail.text lines)) → Word 1024 name →
      eType ≠ .unknown →
    Section.getSectionByName (sectionKey eType startAddr name) lst = some sp → Unlisted sp →
      Readable true lines →
    (∀ x ∈ instructions none lines, x.1.Inside sp) → RecordsListing eType lst root startAddr name sp
      lines tail s := by
  intro h
  have hd : 'Z'.isAlpha = true := by decide
  have hrecords := h .little32 [driveSection] ⟨[]⟩ 0 ".text".toList driveSection (driveLines 'Z' hd)
    .eof _ (driveText_holds 'Z' hd) ⟨⟨by decide, by decide⟩, by decide⟩ nofun rfl ⟨rfl, rfl, rfl,
      rfl⟩ (driveLines_readable 'Z' hd) (driveLines_inside 'Z' hd)
  have hrecorded := (@recordsListing_iff .little32 [driveSection] ⟨[]⟩ 0 ".text".toList driveSection
    (driveLines 'Z' hd) .eof _ (driveText_holds 'Z' hd) ⟨⟨by decide, by decide⟩, by decide⟩ nofun
      rfl (driveLines_readable 'Z' hd)
    (driveLines_inside 'Z' hd)).mp hrecords
  rw [recorded_iff_kept ⟨rfl, rfl, rfl, rfl⟩ _ (driveLines_inside 'Z' hd),
    driveLines_kept] at hrecorded
  exact absurd hrecorded (by decide)

end Parser

end ObjDump

end TraceDecoder
