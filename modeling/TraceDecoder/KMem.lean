import TraceDecoder.Disassembler
import TraceDecoder.SectionLookup
import TraceDecoder.Timestamps

/-!
# Kernel memory

`KMem` reads the pages of the kernel when they are first touched, each as a blob that objdump lists,
and fetches instructions from their sections. In whatever order the pages come, a fetch gives what
is in memory, but for an instruction that begins in the last half-word of a page: its upper half is
taken from the cell behind the page, which holds 0.
-/

namespace TraceDecoder

open ObjDump Disassembler

/-- What the constructor of `ObjDump` comes to for the dump of a page: there is no such
file, it fails, perhaps with a section that it has added before and some lines of its
listing, or it reads a listing. -/
inductive PageDump
  | missing
  | failed (added : Option (List ListingLine))
  | listing (lines : List ListingLine)

def pageAddr (addr : ADDRESS) : ADDRESS := addr &&& ~~~4095

def pageSection (page : ADDRESS) (lines : List ListingLine) : Section :=
  (lines.foldl Parser.Listing.enter
    { sp := (Parser.blobSection page (page + 4096)).allocate, srcFileRoot := ⟨[]⟩ }).sp

def Cells.read {α : Type} (cells : Option (Cells α)) (i : ℤ) : Option α :=
  if i < 0 then none else (cells.bind (·[i.toNat]?)).join

def joinHalves (low high : BitVec 16) : RV_INST := low.setWidth 32 ||| high.setWidth 32 <<< (16 : ℕ)

inductive KMemResult (α : Type)
  | ok (a : α)
  | err
  | fault
  deriving DecidableEq

/-- What `disassemble` reports. -/
structure KMemInstruction where
  address : ADDRESS
  instSize : ℕ
  instruction : RV_INST
  instructionText : Option (List Char)
  deriving DecidableEq

structure KMem where
  sectionLst : List Section
  cachedSection : Option Section

namespace KMem

def init : KMem := ⟨[], none⟩

/-- The test of `findSection`. -/
def Has (sp : Section) (addr : ADDRESS) : Prop :=
  sp.startAddr + sp.vmaOffset ≤ addr ∧ addr < sp.endAddr + sp.vmaOffset

instance (sp : Section) (addr : ADDRESS) : Decidable (Has sp addr) :=
  inferInstanceAs (Decidable (_ ∧ _))

variable (k : KMem) (dump : ADDRESS → PageDump) (addr : ADDRESS)

def findSection : Option Section × KMem :=
  match k.cachedSection.filter (Has · addr) with
  | some sp => (some sp, k)
  | none =>
    match k.sectionLst.find? (Has · addr) with
    | some sp => (some sp, { k with cachedSection := some sp })
    | none => (none, k)

def touch : Option Section × KMem :=
  match k.findSection addr with
  | (some sp, k) => (some sp, k)
  | (none, k) =>
    match dump (pageAddr addr) with
    | .failed added =>
      (none, { k with sectionLst := (added.map (pageSection (pageAddr addr))).toList ++
        k.sectionLst })
    | .missing => k.findSection addr
    | .listing lines =>
      { k with sectionLst := pageSection (pageAddr addr) lines :: k.sectionLst }.findSection addr

def disassemble : KMemResult KMemInstruction × KMem :=
  match k.touch dump addr with
  | (none, k) => (.err, k)
  | (some sp, k) =>
    match Cells.read sp.code (sp.lookupIndex addr) with
    | none => (.fault, k)
    | some low =>
      match decodeInstructionSize (low.setWidth 32) with
      | none => (.err, k)
      | some size =>
        let inst : Option RV_INST :=
          if 16 < size then
            (Cells.read sp.code (sp.lookupIndex addr + 1)).map fun high => joinHalves low high
          else some (low.setWidth 32)
        match inst, Cells.read sp.diss (sp.lookupIndex addr) with
        | some inst, some text => (.ok ⟨addr, size, inst, text⟩, k)
        | _, _ => (.fault, k)

def getInstructionByAddress : KMemResult RV_INST × KMem :=
  match k.touch dump addr with
  | (none, k) => (.err, k)
  | (some sp, k) =>
    if ¬Has sp addr then (.err, k)
    else
      match Cells.read sp.code (sp.lookupIndex addr) with
      | none => (.fault, k)
      | some low =>
        match decodeInstructionSize (low.setWidth 32) with
        | none => (.err, k)
        | some size =>
          if size = 32 then
            match Cells.read sp.code (sp.lookupIndex addr + 1) with
            | some high => (.ok (joinHalves low high), k)
            | none => (.fault, k)
          else (.ok (low.setWidth 32), k)

inductive Call
  | disassemble (addr : ADDRESS)
  | getInstructionByAddress (addr : ADDRESS)

def call : Call → KMem
  | .disassemble addr => (k.disassemble dump addr).2
  | .getInstructionByAddress addr => (k.getInstructionByAddress dump addr).2

def calls (cs : List Call) : KMem := cs.foldl (call · dump) k

/-! ### Pages and their sections -/

/-- The listing of a page shows the half-words of memory, and all of them. -/
structure Shows (mem : ADDRESS → BitVec 16) (page : ADDRESS) (lines : List ListingLine) : Prop where
  inside : ∀ x ∈ instructions none lines, x.1.Inside (Parser.blobSection page (page + 4096))
  halfWords : ∀ x ∈ instructions none lines, ∀ h ∈ x.1.halfWords page, h.1 < 2048 ∧
    h.2 = mem (page + 2 * BitVec.ofNat 64 h.1)
  all : ∀ i < 2048, ∃ x ∈ instructions none lines, ∃ h ∈ x.1.halfWords page, h.1 = i

variable {k dump addr} {mem : ADDRESS → BitVec 16} {page : ADDRESS} {lines : List ListingLine}

theorem toNat_pageAddr (addr : ADDRESS) : (pageAddr addr).toNat = 4096 * (addr.toNat / 4096) :=
  highBits (n := 12) (by decide) addr

theorem pageAddr_pageAddr (addr : ADDRESS) : pageAddr (pageAddr addr) = pageAddr addr := by
  rw [← BitVec.toNat_inj, toNat_pageAddr, toNat_pageAddr]
  omega

theorem Shows.pageSection_eq (h : Shows mem page lines) :
    pageSection page lines = enterAll (Parser.blobSection page (page + 4096)).allocate none lines :=
  foldl_enter lines { sp := (Parser.blobSection page (page + 4096)).allocate, srcFileRoot := ⟨[]⟩ }
    none rfl rfl h.inside

theorem bounds_enter (s : Parser.Listing) (l : ListingLine) : (s.enter l).sp.startAddr =
    s.sp.startAddr ∧
    (s.enter l).sp.endAddr = s.sp.endAddr ∧ (s.enter l).sp.vmaOffset = s.sp.vmaOffset := by
  cases l with
  | blank | label | func | dots | source | inst => exact ⟨rfl, rfl, rfl⟩

/-- Whatever has been read of its listing. -/
theorem bounds_pageSection (page : ADDRESS) (lines : List ListingLine) :
    (pageSection page lines).startAddr = page ∧
    (pageSection page lines).endAddr = page + 4096 ∧ (pageSection page lines).vmaOffset = 0#64 := by
  have hfold (s : Parser.Listing) : (lines.foldl Parser.Listing.enter s).sp.startAddr =
      s.sp.startAddr ∧ (lines.foldl Parser.Listing.enter s).sp.endAddr = s.sp.endAddr ∧
      (lines.foldl Parser.Listing.enter s).sp.vmaOffset = s.sp.vmaOffset := by
    induction lines generalizing s with
    | nil => exact ⟨rfl, rfl, rfl⟩
    | cons l lines ih =>
      obtain ⟨hstart, hend, hoffset⟩ := bounds_enter s l
      rw [List.foldl_cons, ← hstart, ← hend, ← hoffset]
      exact ih (s.enter l)
  exact hfold _

/-- The section of a page is found for the addresses of the page, but for the last page of all,
whose end is 0. -/
theorem has_pageSection_iff (lines : List ListingLine) (hpage : pageAddr page = page) :
    Has (pageSection page lines) addr ↔ pageAddr addr = page ∧ page ≠ ~~~4095 := by
  have hhas : Has (pageSection page lines) addr ↔ page ≤ addr ∧ addr < page + 4096 := by
    obtain ⟨hstart, hend, hoffset⟩ := bounds_pageSection page lines
    rw [Has, hstart, hend, hoffset, BitVec.add_zero, BitVec.add_zero]
  have hnat : page.toNat = 4096 * (page.toNat / 4096) := by
    conv_lhs => rw [← hpage, toNat_pageAddr]
  have hlast : (~~~4095 : ADDRESS).toNat = 2 ^ 64 - 4096 := by decide
  have hsame : pageAddr addr = page ↔ 4096 * (addr.toNat / 4096) = page.toNat := by
    rw [← BitVec.toNat_inj, toNat_pageAddr]
  have hlast' : page ≠ ~~~4095 ↔ page.toNat ≠ 2 ^ 64 - 4096 := by
    rw [ne_eq, ← BitVec.toNat_inj, hlast]
  have hlt := page.isLt
  have hlt' := addr.isLt
  rw [hhas, hsame, hlast', BitVec.le_def, BitVec.lt_def, BitVec.toNat_add]
  change page.toNat ≤ addr.toNat ∧ addr.toNat < (page.toNat + 4096) % 2 ^ 64 ↔ _
  omega

theorem size_blobSection (page : ADDRESS) : (Parser.blobSection page (page + 4096)).size =
    4096 := by
  change (page + 4096 - page).setWidth 32 = 4096
  have hdiff : page + 4096 - page = 4096 := by bv_omega
  rw [hdiff]
  rfl

theorem ne_none_of_mem {α : Type} {entries : List (ℕ × α)} {i : ℕ} {a : α} (h : (i, a) ∈ entries) :
    ∃ a', lastAt entries i = some a' := by
  rw [← Option.ne_none_iff_exists']
  intro hnone
  have hkeys := List.lookup_eq_none_iff.mp hnone
  simpa using hkeys (i, a) (by simpa using h)

theorem Cells.read_natCast {α : Type} (cells : Cells α) (i : ℕ) :
    Cells.read (some cells) i = (cells[i]?).join := by
  rw [Cells.read, if_neg (by omega), Int.toNat_natCast]
  rfl

theorem getElem?_allocate {α : Type} {count i : ℕ} (hi : i < count) (a : α) :
    (Cells.allocate count count a)[i]? = some (some a) := by
  rw [Cells.allocate, List.getElem?_map, List.getElem?_range hi, Option.map_some, if_pos (by omega)]

theorem Shows.code_eq (h : Shows mem page lines) :
    (pageSection page lines).code = some
    ((Cells.allocate 2049 2049 0).storeAll (codeEntries page none lines)) := by
  have hsize := size_blobSection page
  have hcount : ((Parser.blobSection page (page + 4096)).halves + 1).toNat = 2049 := by
    rw [Section.halves, hsize]
    rfl
  have hinits : (Parser.blobSection page (page + 4096)).initHalves + 1 = 2049 := by
    rw [Section.initHalves, hsize]
    rfl
  rw [h.pageSection_eq]
  change some ((Cells.allocate ((Parser.blobSection page (page + 4096)).halves + 1).toNat
    ((Parser.blobSection page (page + 4096)).initHalves + 1) 0).storeAll
      (codeEntries page none lines)) = _
  rw [hcount, hinits]

theorem Shows.diss_eq (h : Shows mem page lines) : (pageSection page lines).diss =
    some ((Cells.allocate 2048 2048 none).storeAll (entries page (fun x => some x.1.text) none
        lines)) := by
  have hsize := size_blobSection page
  have hcount : (Parser.blobSection page (page + 4096)).halves.toNat = 2048 := by
    rw [Section.halves, hsize]
    rfl
  have hinits : (Parser.blobSection page (page + 4096)).initHalves = 2048 := by
    rw [Section.initHalves, hsize]
    rfl
  rw [h.pageSection_eq]
  change some ((Cells.allocate (Parser.blobSection page (page + 4096)).halves.toNat
    (Parser.blobSection page (page + 4096)).initHalves none).storeAll
      (entries page (fun x => some x.1.text) none lines)) = _
  rw [hcount, hinits]

theorem Shows.of_mem_codeEntries (h : Shows mem page lines) {i : ℕ} {v : BitVec 16}
    (hmem : (i, v) ∈ codeEntries page none lines) :
    i < 2048 ∧ v = mem (page + 2 * BitVec.ofNat 64 i) := by
  obtain ⟨x, hx, hhalf⟩ := List.mem_flatMap.mp hmem
  exact h.halfWords x hx (i, v) hhalf

theorem Shows.read_code (h : Shows mem page lines) {i : ℕ} (hi : i < 2048) :
    Cells.read (pageSection page lines).code i = some (mem (page + 2 * BitVec.ofNat 64 i)) := by
  obtain ⟨x, hx, ⟨j, v⟩, hhalf, hj⟩ := h.all i hi
  obtain rfl : j = i := hj
  have hmem : (j, v) ∈ codeEntries page none lines := List.mem_flatMap.mpr ⟨x, hx, hhalf⟩
  obtain ⟨v', hv'⟩ := ne_none_of_mem hmem
  obtain ⟨-, rfl⟩ := h.of_mem_codeEntries (exists_of_lastAt hv')
  rw [h.code_eq, Cells.read_natCast, getElem?_storeAll, hv', length_allocate]
  dsimp only
  rw [if_pos (by omega)]
  rfl

theorem Shows.read_code_end (h : Shows mem page lines) :
    Cells.read (pageSection page lines).code (2048 : ℕ) = some 0 := by
  have hnone : lastAt (codeEntries page none lines) 2048 = none := by
    by_contra hne
    obtain ⟨v, hv⟩ := Option.ne_none_iff_exists'.mp hne
    exact absurd (h.of_mem_codeEntries (exists_of_lastAt hv)).1 (by decide)
  have hcell : (Cells.allocate 2049 2049 (0 : BitVec 16))[2048]? = some (some 0) :=
    getElem?_allocate (by decide) 0
  rw [h.code_eq, Cells.read_natCast, getElem?_storeAll, hnone]
  dsimp only
  rw [hcell]
  rfl

def lineText (page : ADDRESS) (lines : List ListingLine) (i : ℕ) : Option (List Char) :=
  lastAt (entries page (fun x => x.1.text) none lines) i

theorem Shows.read_diss (h : Shows mem page lines) {i : ℕ} (hi : i < 2048) :
    Cells.read (pageSection page lines).diss i = some (lineText page lines i) := by
  have hcell : (Cells.allocate 2048 2048 (none : Option (List Char)))[i]? = some (some none) :=
    getElem?_allocate hi none
  have hentries : entries page (fun x => some x.1.text) none lines =
      (entries page (fun x => x.1.text) none lines).map fun x => (x.1, some x.2) := by
    rw [entries, entries, List.map_map]
    rfl
  rw [h.diss_eq, Cells.read_natCast, getElem?_storeAll, hentries, lastAt_map, lineText,
    length_allocate]
  cases lastAt (entries page (fun x => x.1.text) none lines) i with
  | none =>
    rw [Option.map_none]
    dsimp only
    rw [hcell]
    rfl
  | some text =>
    rw [Option.map_some]
    dsimp only
    rw [if_pos hi]
    rfl

/-! ### Fetches -/

/-- The instruction in memory, with its size: the half-word at the address, and for 32 bits the next
one, or 0 where that is in another page. There is none of more than 32 bits. -/
def fetched (mem : ADDRESS → BitVec 16) (addr : ADDRESS) : Option (ℕ × RV_INST) :=
  (decodeInstructionSize ((mem addr).setWidth 32)).map fun size =>
    (size, if 16 < size then joinHalves (mem addr) (if pageAddr (addr + 2) = pageAddr addr
      then mem (addr + 2) else 0) else (mem addr).setWidth 32)

def place (addr : ADDRESS) : ℕ := addr.toNat % 4096 / 2

theorem Shows.lookupIndex (h : Shows mem (pageAddr addr) lines) :
    (pageSection (pageAddr addr) lines).lookupIndex addr = place addr := by
  have hfirst : (pageSection (pageAddr addr) lines).firstAddr = pageAddr addr := by
    rw [h.pageSection_eq]
    exact BitVec.add_zero _
  have hdiff : (addr - pageAddr addr).toNat = addr.toNat % 4096 := by
    have hnat := toNat_pageAddr addr
    have hlt := addr.isLt
    rw [BitVec.toNat_sub, hnat]
    omega
  rw [Section.lookupIndex_eq (by rw [hfirst, hdiff]; omega), hfirst, hdiff, place]

theorem Shows.read_low (h : Shows mem (pageAddr addr) lines) (heven : addr.toNat % 2 = 0) :
    Cells.read (pageSection (pageAddr addr) lines).code
      ((pageSection (pageAddr addr) lines).lookupIndex addr) = some (mem addr) := by
  have hsame : pageAddr addr + 2 * BitVec.ofNat 64 (place addr) = addr := by
    have hnat := toNat_pageAddr addr
    have hlt := addr.isLt
    rw [← BitVec.toNat_inj, BitVec.toNat_add, BitVec.toNat_mul, BitVec.toNat_ofNat, hnat, place]
    change (_ + 2 * _ % 2 ^ 64) % 2 ^ 64 = _
    omega
  rw [h.lookupIndex, h.read_code (by unfold place; omega), hsame]

theorem Shows.read_high (h : Shows mem (pageAddr addr) lines) (heven : addr.toNat % 2 = 0)
    (hlast : pageAddr addr ≠ ~~~4095) :
    Cells.read (pageSection (pageAddr addr) lines).code
      ((pageSection (pageAddr addr) lines).lookupIndex addr + 1) =
      some (if pageAddr (addr + 2) = pageAddr addr then mem (addr + 2) else 0) := by
  have hlt := addr.isLt
  have hlastNat : 4096 * (addr.toNat / 4096) ≠ 2 ^ 64 - 4096 := by
    rw [← toNat_pageAddr]
    intro heq
    exact hlast (BitVec.eq_of_toNat_eq heq)
  have hnext : (addr + 2).toNat = addr.toNat + 2 := by
    rw [BitVec.toNat_add]
    change (addr.toNat + 2) % 2 ^ 64 = _
    omega
  have hpage : pageAddr (addr + 2) = pageAddr addr ↔ (addr.toNat + 2) / 4096 = addr.toNat /
      4096 := by
    rw [← BitVec.toNat_inj, toNat_pageAddr, toNat_pageAddr, hnext]
    omega
  by_cases hsame : pageAddr (addr + 2) = pageAddr addr
  · have h' : Shows mem (pageAddr (addr + 2)) lines := hsame ▸ h
    have hplace : ((place addr : ℕ) : ℤ) + 1 = (place (addr + 2) : ℕ) := by
      have hdiv := hpage.mp hsame
      rw [place, place, hnext]
      omega
    rw [if_pos hsame, ← h'.read_low (by rw [hnext]; omega), h.lookupIndex, h'.lookupIndex,
      hplace, hsame]
  · have hplace : ((place addr : ℕ) : ℤ) + 1 = (2048 : ℕ) := by
      have hdiv := mt hpage.mpr hsame
      rw [place]
      omega
    rw [if_neg hsame, h.lookupIndex, hplace, h.read_code_end]

/-! ### Runs -/

structure Reads (dump : ADDRESS → PageDump) (k : KMem) : Prop where
  pages : ∀ sp ∈ k.sectionLst, ∃ page lines, pageAddr page = page ∧
    (dump page = .listing lines ∨ dump page = .failed (some lines)) ∧ sp = pageSection page lines
  cached : ∀ sp ∈ k.cachedSection, sp ∈ k.sectionLst

theorem Reads.findSection (hk : Reads dump k) (addr : ADDRESS) :
    Reads dump (k.findSection addr).2 ∧ (k.findSection addr).2.sectionLst = k.sectionLst ∧
      (∀ sp, (k.findSection addr).1 = some sp → sp ∈ k.sectionLst ∧ Has sp addr) ∧
      ((k.findSection addr).1 = none → ∀ sp ∈ k.sectionLst, ¬Has sp addr) := by
  unfold KMem.findSection
  cases hcached : k.cachedSection.filter (Has · addr) with
  | some sp =>
    have hsp : k.cachedSection = some sp ∧ Has sp addr := by
      simpa [Option.filter_eq_some_iff] using hcached
    refine ⟨hk, rfl, fun sp' hsp' => ?_, by simp⟩
    obtain rfl := Option.some.inj hsp'
    exact ⟨hk.cached sp hsp.1, hsp.2⟩
  | none =>
    cases hfind : k.sectionLst.find? (Has · addr) with
    | some sp =>
      have hmem : sp ∈ k.sectionLst := List.mem_of_find?_eq_some hfind
      have hhas : Has sp addr := by simpa using List.find?_some hfind
      refine ⟨⟨hk.pages, fun sp' hsp' => ?_⟩, rfl, fun sp' hsp' => ?_, by simp⟩
      · exact Option.some.inj hsp' ▸ hmem
      · exact Option.some.inj hsp' ▸ ⟨hmem, hhas⟩
    | none =>
      refine ⟨hk, rfl, by simp, fun _ sp hsp => ?_⟩
      simpa using List.find?_eq_none.mp hfind sp hsp

/-- A page is read. -/
theorem Reads.add (hk : Reads dump k) (hpage : pageAddr page = page)
    (hdump : dump page = .listing lines ∨ dump page = .failed (some lines)) :
    Reads dump { k with sectionLst := pageSection page lines :: k.sectionLst } := by
  refine ⟨fun sp hsp => ?_, fun sp hsp => List.mem_cons_of_mem _ (hk.cached sp hsp)⟩
  rcases List.mem_cons.mp hsp with rfl | hsp
  · exact ⟨page, lines, hpage, hdump, rfl⟩
  · exact hk.pages sp hsp

theorem Reads.touch (hk : Reads dump k) (addr : ADDRESS) : Reads dump (k.touch dump addr).2 := by
  have hkept := (hk.findSection addr).1
  have hidem := pageAddr_pageAddr addr
  unfold KMem.touch
  rcases hfound : k.findSection addr with ⟨found, k'⟩
  rw [hfound] at hkept
  cases found with
  | some sp => exact hkept
  | none =>
    dsimp only at hkept ⊢
    cases hdump : dump (pageAddr addr) with
    | missing => exact (hkept.findSection addr).1
    | listing lines => exact ((hkept.add hidem (.inl hdump)).findSection addr).1
    | failed added =>
      cases added with
      | none => exact hkept
      | some lines => exact hkept.add hidem (.inr hdump)

def sectionOf (dump : ADDRESS → PageDump) (addr : ADDRESS) : Option Section :=
  if pageAddr addr = ~~~4095 then none
  else
    match dump (pageAddr addr) with
    | .listing lines => some (pageSection (pageAddr addr) lines)
    | _ => none

section
variable (hwhole : ∀ lines, dump (pageAddr addr) ≠ .failed (some lines))

include hwhole

theorem Reads.of_has (hk : Reads dump k) {sp : Section} (hsp : sp ∈ k.sectionLst)
    (hhas : Has sp addr) :
    sectionOf dump addr = some sp := by
  obtain ⟨page, lines, hpage, hdump, rfl⟩ := hk.pages sp hsp
  obtain ⟨rfl, hlast⟩ := (has_pageSection_iff lines hpage).mp hhas
  rw [sectionOf, if_neg hlast, hdump.resolve_right (hwhole lines)]

/-- What is found is the section of the page, whatever has been read before. -/
theorem Reads.fst_touch (hk : Reads dump k) : (k.touch dump addr).1 = sectionOf dump addr := by
  obtain ⟨hkept, hsame, hsome, hnone⟩ := hk.findSection addr
  have hidem := pageAddr_pageAddr addr
  unfold KMem.touch
  rcases hfound : k.findSection addr with ⟨found, k'⟩
  rw [hfound] at hkept hsame hsome hnone
  cases found with
  | some sp =>
    obtain ⟨hmem, hhas⟩ := hsome sp rfl
    exact (hk.of_has hwhole hmem hhas).symm
  | none =>
    have hmissing : ∀ sp ∈ k'.sectionLst, ¬Has sp addr := hsame ▸ hnone rfl
    dsimp only
    cases hdump : dump (pageAddr addr) with
    | failed added =>
      unfold sectionOf
      rw [hdump]
      simp
    | missing =>
      obtain ⟨-, -, hsome', -⟩ := hkept.findSection addr
      have hnothing : sectionOf dump addr = none := by
        unfold sectionOf
        rw [hdump]
        simp
      rw [hnothing]
      cases hagain : (k'.findSection addr).1 with
      | none => rfl
      | some sp =>
        obtain ⟨hmem, hhas⟩ := hsome' sp hagain
        exact absurd hhas (hmissing sp hmem)
    | listing lines =>
      -- the page is new
      have hnew := hkept.add hidem (.inl hdump)
      obtain ⟨-, -, hsome', hnone'⟩ := hnew.findSection addr
      cases hagain : ({ k' with sectionLst := pageSection (pageAddr addr) lines ::
        k'.sectionLst }.findSection addr).1 with
      | some sp =>
        obtain ⟨hmem, hhas⟩ := hsome' sp hagain
        exact (hnew.of_has hwhole hmem hhas).symm
      | none =>
        have hlast : pageAddr addr = ~~~4095 := by
          by_contra hlast
          exact hnone' hagain _ List.mem_cons_self ((has_pageSection_iff lines hidem).mpr
            ⟨rfl, hlast⟩)
        rw [sectionOf, if_pos hlast]

end

theorem size_of_decode {w : RV_INST} {size : ℕ} (h : decodeInstructionSize w = some size) :
    size = 32 ↔ 16 < size := by
  unfold decodeInstructionSize at h
  split_ifs at h <;> cases h <;> decide

def instructionOf (dump : ADDRESS → PageDump) (mem : ADDRESS → BitVec 16) (addr : ADDRESS) :
    Option KMemInstruction :=
  if pageAddr addr = ~~~4095 then none
  else
    match dump (pageAddr addr) with
    | .listing lines => (fetched mem addr).map fun w =>
      ⟨addr, w.1, w.2, lineText (pageAddr addr) lines (place addr)⟩
    | _ => none

theorem Reads.fetch (hshows : ∀ lines, dump (pageAddr addr) = .listing lines →
      Shows mem (pageAddr addr) lines)
    (hwhole : ∀ lines, dump (pageAddr addr) ≠ .failed (some lines)) (hk : Reads dump k)
    (heven : addr.toNat % 2 = 0) :
    (k.disassemble dump addr).1 = (instructionOf dump mem addr).elim .err .ok ∧
      (k.getInstructionByAddress dump addr).1 = (instructionOf dump mem addr).elim .err
        fun i => .ok i.instruction := by
  have htouch := hk.fst_touch hwhole
  unfold KMem.disassemble KMem.getInstructionByAddress
  rcases hr : k.touch dump addr with ⟨found, k'⟩
  rw [hr] at htouch
  obtain rfl : found = sectionOf dump addr := htouch
  unfold sectionOf instructionOf
  by_cases hlast : pageAddr addr = ~~~4095
  · rw [if_pos hlast, if_pos hlast]
    exact ⟨rfl, rfl⟩
  · rw [if_neg hlast, if_neg hlast]
    cases hdump : dump (pageAddr addr) with
    | missing => exact ⟨rfl, rfl⟩
    | failed added => exact ⟨rfl, rfl⟩
    | listing lines =>
      have h := hshows lines hdump
      have hhas : Has (pageSection (pageAddr addr) lines) addr :=
        (has_pageSection_iff lines (pageAddr_pageAddr addr)).mpr ⟨rfl, hlast⟩
      have hdiss : Cells.read (pageSection (pageAddr addr) lines).diss
          ((pageSection (pageAddr addr) lines).lookupIndex addr) =
            some (lineText (pageAddr addr) lines (place addr)) := by
        rw [h.lookupIndex, h.read_diss (by unfold place; omega)]
      dsimp only
      rw [if_neg (not_not.mpr hhas), h.read_low heven, h.read_high heven hlast, hdiss, fetched]
      dsimp only
      cases hsize : decodeInstructionSize ((mem addr).setWidth 32) with
      | none => exact ⟨rfl, rfl⟩
      | some size =>
        have hwide := size_of_decode hsize
        by_cases hlong : 16 < size
        · simp [hwide.mpr hlong]
        · simp [hlong, mt hwide.mp hlong]

theorem snd_disassemble : (k.disassemble dump addr).2 = (k.touch dump addr).2 := by
  unfold disassemble
  rcases k.touch dump addr with ⟨found, k'⟩
  cases found with
  | none => rfl
  | some sp =>
    dsimp only
    split
    · rfl
    · split
      · rfl
      · split <;> rfl

theorem snd_getInstructionByAddress : (k.getInstructionByAddress dump addr).2 =
    (k.touch dump addr).2 := by
  unfold getInstructionByAddress
  rcases k.touch dump addr with ⟨found, k'⟩
  cases found with
  | none => rfl
  | some sp =>
    dsimp only
    split_ifs
    · split
      · rfl
      · split
        · rfl
        · split_ifs
          · split <;> rfl
          · rfl
    · rfl

theorem Reads.calls (hk : Reads dump k) (cs : List Call) : Reads dump (k.calls dump cs) := by
  induction cs generalizing k with
  | nil => exact hk
  | cons c cs ih =>
    apply ih
    cases c with
    | disassemble addr =>
      change Reads dump (k.disassemble dump addr).2
      rw [snd_disassemble]
      exact hk.touch _
    | getInstructionByAddress addr =>
      change Reads dump (k.getInstructionByAddress dump addr).2
      rw [snd_getInstructionByAddress]
      exact hk.touch _

/-- **Kernel memory**, behind any calls: both functions give the instruction at an address, unless
the dump of its page fails with a section added. -/
theorem fetch_afterCalls (hshows : ∀ lines, dump (pageAddr addr) = .listing lines →
      Shows mem (pageAddr addr) lines)
    (hwhole : ∀ lines, dump (pageAddr addr) ≠ .failed (some lines)) (cs : List Call)
    (heven : addr.toNat % 2 = 0) :
    ((init.calls dump cs).disassemble dump addr).1 = (instructionOf dump mem addr).elim .err .ok ∧
      ((init.calls dump cs).getInstructionByAddress dump addr).1 =
      (instructionOf dump mem addr).elim .err fun i => .ok i.instruction := by
  have hinit : Reads dump init := ⟨by simp [init], by simp [init]⟩
  exact (hinit.calls cs).fetch hshows hwhole heven

/-! ### A page with one half-word all over it -/

def hexDigit (i : Fin 16) : Char := "0123456789abcdef".toList.getD i '0'

theorem digitVal_hexDigit : ∀ i : Fin 16, CString.digitVal (hexDigit i) = i := by decide

theorem two_mul_lt (c : Fin 8) : 2 * (c : ℕ) < 16 := by omega

def pageDigits (a b : Fin 16) (c : Fin 8) : List Char :=
  ['1', hexDigit a, hexDigit b, hexDigit ⟨2 * c, two_mul_lt c⟩]

theorem pageDigits_ne (a b : Fin 16) (c : Fin 8) : pageDigits a b c ≠ [] := by simp [pageDigits]

theorem isDigit_pageDigits (a b : Fin 16) (c : Fin 8) :
    ∀ d ∈ pageDigits a b c, CString.IsDigit 16 d := by
  have hone : CString.digitVal '1' < 16 := by decide
  simp [pageDigits, CString.IsDigit, digitVal_hexDigit]
  omega

def bareLine (address encoding : CString.Numeral 16)
    (hsize : encoding.digits.length = 4 ∨ encoding.digits.length = 8) : InstLine where
  indent := []
  address := address
  gap := ['\t']
  encoding := encoding
  tab := []
  text := []
  blanks := by simp [IsBlank]
  size := hsize
  apart := by simp
  text_start := by simp
  text_chars := by simp

def pageEncoding : CString.Numeral 16 := ⟨"0003".toList, by decide, by decide⟩

theorem size_pageEncoding : pageEncoding.digits.length = 4 ∨ pageEncoding.digits.length = 8 := by
  decide

def pageLine (a b : Fin 16) (c : Fin 8) : InstLine :=
  bareLine ⟨pageDigits a b c, pageDigits_ne a b c, isDigit_pageDigits a b c⟩ pageEncoding
    size_pageEncoding

def pageLines : List InstLine :=
  (List.finRange 16).flatMap fun a => (List.finRange 16).flatMap fun b => (List.finRange 8).map
    fun c => pageLine a b c

theorem instructions_inst (ls : List InstLine) :
    instructions none (ls.map .inst) = ls.map (·, none) := by
  induction ls with
  | nil => rfl
  | cons l ls ih => rw [List.map_cons, instructions, ih, List.map_cons]

theorem value_pageLine (a b : Fin 16) (c : Fin 8) : (pageLine a b c).address.value = 0x1000 + 256 *
    a + 16 * b + 2 * c := by
  have hone : CString.digitVal '1' = 1 := by decide
  change CString.ofDigits 16 (pageDigits a b c) = _
  simp only [pageDigits, CString.ofDigits, List.foldl_cons, List.foldl_nil, hone, digitVal_hexDigit]
  omega

theorem halfWords_pageLine (a b : Fin 16) (c : Fin 8) : (pageLine a b c).halfWords 0x1000 =
    [(128 * (a : ℕ) + 8 * (b : ℕ) + (c : ℕ), 3)] := by
  have hplace : (pageLine a b c).place 0x1000 = 128 * (a : ℕ) + 8 * (b : ℕ) + (c : ℕ) := by
    rw [InstLine.place, InstLine.addr, value_pageLine, BitVec.toNat_sub, BitVec.toNat_ofNat]
    change (2 ^ 64 - 0x1000 + _ % 2 ^ 64) % 2 ^ 64 / 2 = _
    omega
  have hvalue : ((pageLine a b c).value).setWidth 16 = (3 : BitVec 16) := by
    change (BitVec.ofNat 32 (CString.ofDigits 16 "0003".toList)).setWidth 16 = 3#16
    decide
  rw [InstLine.halfWords, hplace, hvalue]
  exact if_pos rfl

theorem shows_pageLines : Shows (fun _ => 3) 0x1000 (pageLines.map .inst) where
  inside := by
    rw [instructions_inst]
    simp only [pageLines, List.map_flatMap, List.map_map, List.mem_flatMap, List.mem_map,
      List.mem_finRange, true_and]
    rintro _ ⟨a, b, c, rfl⟩
    refine ⟨?_, ?_⟩
    · change (pageLine a b c).address.value < 2 ^ 64
      rw [value_pageLine]
      omega
    · change ((pageLine a b c).addr - 0x1000).toNat < 4096
      rw [InstLine.addr, value_pageLine, BitVec.toNat_sub, BitVec.toNat_ofNat]
      change (2 ^ 64 - 0x1000 + _ % 2 ^ 64) % 2 ^ 64 < _
      omega
  halfWords := by
    rw [instructions_inst]
    simp only [pageLines, List.map_flatMap, List.map_map, List.mem_flatMap, List.mem_map,
      List.mem_finRange, true_and]
    rintro _ ⟨a, b, c, rfl⟩ h hh
    change h ∈ (pageLine a b c).halfWords 0x1000 at hh
    rw [halfWords_pageLine, List.mem_singleton] at hh
    rw [hh]
    exact ⟨by dsimp only; omega, rfl⟩
  all := by
    intro i hi
    rw [instructions_inst]
    simp only [pageLines, List.map_flatMap, List.map_map, List.mem_flatMap, List.mem_map,
      List.mem_finRange, true_and]
    refine ⟨_, ⟨⟨i / 128, by omega⟩, ⟨i / 8 % 16, by omega⟩, ⟨i % 8, by omega⟩, rfl⟩, (i, 3), ?_,
      rfl⟩
    change (i, 3) ∈ (pageLine ⟨i / 128, by omega⟩ ⟨i / 8 % 16, by omega⟩
      ⟨i % 8, by omega⟩).halfWords 0x1000
    rw [halfWords_pageLine, List.mem_singleton]
    refine Prod.ext ?_ rfl
    change i = 128 * (i / 128) + 8 * (i / 8 % 16) + i % 8
    omega

def onePage (page : ADDRESS) : PageDump :=
  if page = 0x1000 then .listing (pageLines.map .inst) else if page = 0x3000 then .failed (some [])
    else .missing

/-- Inside the page an instruction has both of its halves, and at its end the lower one only. -/
theorem fetch_onePage :
    ((init.calls onePage [.disassemble 0x2000, .disassemble 0x3000]).getInstructionByAddress onePage
      0x1000).1 = .ok 0x30003 ∧
      ((init.calls onePage [.disassemble 0x2000, .disassemble 0x3000]).getInstructionByAddress
        onePage 0x1ffe).1 = .ok 0x3 := by
  have hlisting (a : ADDRESS) (ha : pageAddr a = 0x1000) : onePage (pageAddr a) =
      .listing (pageLines.map .inst) := by
    rw [ha]
    exact if_pos rfl
  have hshows (a : ADDRESS) (ha : pageAddr a = 0x1000) :
      ∀ lines, onePage (pageAddr a) = .listing lines → Shows (fun _ => 3) (pageAddr a) lines := by
    intro lines hdump
    rw [hlisting a ha] at hdump
    cases hdump
    rw [ha]
    exact shows_pageLines
  have hwhole (a : ADDRESS) (ha : pageAddr a = 0x1000) : ∀ lines, onePage (pageAddr a) ≠
      .failed (some lines) := by
    intro lines hdump
    rw [hlisting a ha] at hdump
    cases hdump
  constructor
  · rw [(fetch_afterCalls (hshows 0x1000 rfl) (hwhole 0x1000 rfl) _ (by decide)).2]
    rfl
  · rw [(fetch_afterCalls (hshows 0x1ffe rfl) (hwhole 0x1ffe rfl) _ (by decide)).2]
    rfl

end KMem

end TraceDecoder
