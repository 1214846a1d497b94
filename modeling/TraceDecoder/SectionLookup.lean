import TraceDecoder.SectionArrays

/-!
# Sections by address

The lookup of a section by an address and the index it is used with. The lookup takes the end
address of a section for the last one in it, which it is for a section of an elf file; that of a
blob is behind it.
-/

namespace TraceDecoder

namespace Section

/-- The test of `getSectionByAddress`. -/
def accepts (sp : Section) (addr : ADDRESS) : Bool :=
  sp.startAddr + sp.vmaOffset ≤ addr ∧ addr ≤ sp.endAddr + sp.vmaOffset

def getSectionByAddress (addr : ADDRESS) (lst : List Section) : Option Section :=
  lst.find? fun sp => sp.accepts addr

/-- The index of the half-word at an address, an `int`. -/
def lookupIndex (sp : Section) (addr : ADDRESS) : ℤ :=
  (((addr - sp.vmaOffset - sp.startAddr) / 2).setWidth 32).toInt

structure Allocated (sp : Section) : Prop where
  code : sp.code.isSome
  diss : sp.diss.isSome
  fName : sp.fName.isSome
  line : sp.line.isSome

def HasCell {α : Type} (cells : Option (Cells α)) (i : ℤ) : Prop :=
  ∃ cs ∈ cells, 0 ≤ i ∧ i < cs.length

/-- What is read for an address: all four arrays, and the half-word after it. -/
structure IndexInside (sp : Section) (addr : ADDRESS) : Prop where
  code : HasCell sp.code (sp.lookupIndex addr)
  next : HasCell sp.code (sp.lookupIndex addr + 1)
  diss : HasCell sp.diss (sp.lookupIndex addr)
  fName : HasCell sp.fName (sp.lookupIndex addr)
  line : HasCell sp.line (sp.lookupIndex addr)

/-- In every list of sections, the lookups that find this one stay inside its arrays. -/
def LookupsInside (sp : Section) : Prop :=
  ∀ (lst : List Section) (addr : ADDRESS), getSectionByAddress addr lst = some sp →
    sp.IndexInside addr

variable {sp : Section}

theorem lookupsInside_iff_accepts : sp.LookupsInside ↔ ∀ addr, sp.accepts addr →
    sp.IndexInside addr := by
  constructor
  · intro h addr haddr
    exact h [sp] addr (List.find?_cons_of_pos haddr)
  · intro h lst addr hfind
    have haccepts := List.find?_some (p := fun sp : Section => sp.accepts addr) hfind
    exact h addr haccepts

theorem hasCell_iff {α : Type} {cells : Option (Cells α)} (hsome : cells.isSome) {n : ℕ}
    (hlength : ∀ cs ∈ cells, cs.length = n) {i : ℤ} : HasCell cells i ↔ 0 ≤ i ∧ i < n := by
  obtain ⟨cs, rfl⟩ := Option.isSome_iff_exists.mp hsome
  rw [← hlength cs rfl]
  constructor
  · rintro ⟨cs', hcs, hi⟩
    cases hcs
    exact hi
  · exact fun hi => ⟨cs, rfl, hi⟩

theorem indexInside_iff (hcreated : sp.Created) (halloc : sp.Allocated) {addr : ADDRESS} :
    sp.IndexInside addr ↔ 0 ≤ sp.lookupIndex addr ∧ sp.lookupIndex addr < sp.halves.toNat := by
  constructor
  · intro h
    exact (hasCell_iff halloc.diss hcreated.diss).mp h.diss
  · rintro ⟨hlow, hhigh⟩
    exact ⟨(hasCell_iff halloc.code hcreated.code).mpr (by omega),
      (hasCell_iff halloc.code hcreated.code).mpr (by omega),
        (hasCell_iff halloc.diss hcreated.diss).mpr ⟨hlow, hhigh⟩,
        (hasCell_iff halloc.fName hcreated.fName).mpr ⟨hlow, hhigh⟩,
      (hasCell_iff halloc.line hcreated.line).mpr ⟨hlow, hhigh⟩⟩

/-! ### The index -/

def firstAddr (sp : Section) : ADDRESS := sp.startAddr + sp.vmaOffset

def lastAddr (sp : Section) : ADDRESS := sp.endAddr + sp.vmaOffset

theorem halves_lt (sp : Section) : sp.halves.toNat < 2 ^ 31 := by
  rw [halves, BitVec.toNat_udiv]
  have hlt := (sp.size + 1).isLt
  exact Nat.div_lt_of_lt_mul hlt

theorem lookupIndex_eq {addr : ADDRESS} (h : (addr - sp.firstAddr).toNat / 2 < 2 ^ 31) :
    sp.lookupIndex addr = ((addr - sp.firstAddr).toNat / 2 : ℕ) := by
  have hoffset : addr - sp.vmaOffset - sp.startAddr = addr - sp.firstAddr := by
    rw [firstAddr]
    grind
  have hnat : (((addr - sp.firstAddr) / 2).setWidth 32).toNat = (addr - sp.firstAddr).toNat /
      2 := by
    rw [BitVec.toNat_setWidth, BitVec.toNat_udiv]
    exact Nat.mod_eq_of_lt (h.trans (by decide))
  rw [lookupIndex, hoffset, BitVec.toInt_eq_toNat_of_lt (by omega), hnat]

/-- Lookups stay inside if and only if the half-words reach to the last address. -/
theorem lookupsInside_iff (hcreated : sp.Created) (halloc : sp.Allocated) :
    sp.LookupsInside ↔ (sp.firstAddr ≤ sp.lastAddr → (sp.lastAddr - sp.firstAddr).toNat / 2 <
        sp.halves.toNat) := by
  have hhalves := sp.halves_lt
  rw [lookupsInside_iff_accepts]
  simp only [indexInside_iff hcreated halloc]
  constructor
  · intro hinside hle
    by_contra hover
    -- The address behind the half-words is accepted too.
    have hspan := BitVec.toNat_sub_of_le hle
    have hnat : sp.firstAddr.toNat ≤ sp.lastAddr.toNat := hle
    have hlast := sp.lastAddr.isLt
    have haddr : (sp.firstAddr + BitVec.ofNat 64 (2 * sp.halves.toNat)).toNat = sp.firstAddr.toNat +
        2 * sp.halves.toNat := by
      rw [BitVec.toNat_add, BitVec.toNat_ofNat, Nat.mod_eq_of_lt (by omega),
        Nat.mod_eq_of_lt (by omega)]
    have haccepts : sp.accepts (sp.firstAddr + BitVec.ofNat 64 (2 * sp.halves.toNat)) := by
      refine decide_eq_true ⟨BitVec.le_def.mpr ?_, BitVec.le_def.mpr ?_⟩
      · rw [haddr]
        exact Nat.le_add_right _ _
      · rw [haddr]
        change _ ≤ sp.lastAddr.toNat
        omega
    have hoffset : (sp.firstAddr + BitVec.ofNat 64 (2 * sp.halves.toNat) - sp.firstAddr).toNat / 2 =
        sp.halves.toNat := by
      rw [BitVec.add_comm, BitVec.add_sub_cancel, BitVec.toNat_ofNat]
      omega
    have hindex := (hinside _ haccepts).2
    rw [lookupIndex_eq (by omega), hoffset] at hindex
    exact lt_irrefl _ hindex
  · intro hreach addr haddr
    obtain ⟨hfirst, hlast⟩ : sp.firstAddr ≤ addr ∧ addr ≤ sp.lastAddr := of_decide_eq_true haddr
    have hle := BitVec.le_trans hfirst hlast
    have hspan := hreach hle
    have hoffset := BitVec.toNat_sub_of_le hfirst
    rw [BitVec.toNat_sub_of_le hle] at hspan
    have hlast' : addr.toNat ≤ sp.lastAddr.toNat := hlast
    rw [lookupIndex_eq (by omega)]
    omega

/-! ### The two kinds -/

/-- A section of an elf file: it is not empty at address 0, and it does not have the greatest size
unless it goes round the end of the address space. -/
def ElfFits (sp : Section) : Prop :=
  (sp.size = 0 → sp.firstAddr ≠ 0) ∧ (sp.size = BitVec.allOnes 32 → sp.lastAddr < sp.firstAddr)

/-- A blob: it ends in front of its start, or it has an odd size that is
less than the greatest one. -/
def BlobFits (sp : Section) : Prop :=
  sp.endAddr < sp.startAddr ∨
    (sp.endAddr - sp.startAddr).toNat % 2 = 1 ∧ (sp.endAddr - sp.startAddr).toNat < 2 ^ 32 - 1

theorem halves_allOnes (h : sp.size = BitVec.allOnes 32) : sp.halves.toNat = 0 := by
  rw [halves, h]
  rfl

theorem IsElf.reaches_iff (h : sp.IsElf) :
    (sp.firstAddr ≤ sp.lastAddr → (sp.lastAddr - sp.firstAddr).toNat / 2 < sp.halves.toNat) ↔
      sp.ElfFits := by
  have hlast : sp.lastAddr = sp.firstAddr + (sp.size.setWidth 64 - 1) := by
    rw [lastAddr, firstAddr, show sp.endAddr = _ from h]
    grind
  have hspan : sp.lastAddr - sp.firstAddr = sp.size.setWidth 64 - 1 := by
    rw [hlast, BitVec.add_comm, BitVec.add_sub_cancel]
  by_cases hempty : sp.size = 0
  · have hhalves : sp.halves.toNat = 0 := by
      rw [halves, hempty]
      rfl
    have hle : sp.firstAddr ≤ sp.lastAddr ↔ sp.firstAddr = 0 := by
      have hnat : (sp.firstAddr + (BitVec.setWidth 64 (0 : BitVec 32) - 1)).toNat =
          (sp.firstAddr.toNat + (2 ^ 64 - 1)) % 2 ^ 64 :=
        BitVec.toNat_add _ _
      have hzero : sp.firstAddr = 0 ↔ sp.firstAddr.toNat = 0 := BitVec.toNat_inj.symm
      have hlt := sp.firstAddr.isLt
      rw [hlast, hempty, BitVec.le_def, hnat, hzero]
      omega
    rw [hhalves, hle]
    simp [ElfFits, hempty]
  · by_cases hgreatest : sp.size = BitVec.allOnes 32
    · simp [ElfFits, hgreatest, halves_allOnes hgreatest]
    · have hsize : sp.size.toNat ≠ 0 := fun hzero => hempty (BitVec.eq_of_toNat_eq hzero)
      have hspan' : (sp.lastAddr - sp.firstAddr).toNat = sp.size.toNat - 1 := by
        rw [hspan, BitVec.toNat_sub, BitVec.toNat_setWidth]
        have hlt := sp.size.isLt
        change (2 ^ 64 - 1 + sp.size.toNat % 2 ^ 64) % 2 ^ 64 = _
        omega
      rw [hspan', ObjDump.halves_toNat hgreatest]
      exact ⟨fun _ => ⟨fun hzero => absurd hzero hempty, fun heq => absurd heq hgreatest⟩,
        fun _ _ => by omega⟩

theorem IsBlob.reaches_iff (h : sp.IsBlob) :
    (sp.firstAddr ≤ sp.lastAddr → (sp.lastAddr - sp.firstAddr).toNat / 2 < sp.halves.toNat) ↔
      sp.BlobFits := by
  have hfirst : sp.firstAddr = sp.startAddr := by
    rw [firstAddr, h.1]
    exact BitVec.add_zero _
  have hlast : sp.lastAddr = sp.endAddr := by
    rw [lastAddr, h.1]
    exact BitVec.add_zero _
  have hsize : sp.size.toNat = (sp.endAddr - sp.startAddr).toNat % 2 ^ 32 := by
    rw [h.2, BitVec.toNat_setWidth]
  rw [hfirst, hlast, BlobFits, ← BitVec.not_le]
  by_cases hle : sp.startAddr ≤ sp.endAddr
  · simp only [hle, true_imp_iff, not_true, false_or]
    by_cases hgreatest : sp.size = BitVec.allOnes 32
    · rw [halves_allOnes hgreatest]
      rw [hgreatest, BitVec.toNat_allOnes] at hsize
      omega
    · have hne : sp.size.toNat ≠ 2 ^ 32 - 1 :=
        fun heq => hgreatest (BitVec.eq_of_toNat_eq (by rw [heq, BitVec.toNat_allOnes]))
      rw [ObjDump.halves_toNat hgreatest]
      omega
  · simp [hle]

/-- **Lookups by address**: a section is of one of two kinds, and they stay inside its arrays if and
only if it fits. -/
theorem lookupsInside_iff_fits {lst : List Section} (hlst : ObjDump.Made lst) (hmem : sp ∈ lst)
    (halloc : sp.Allocated) :
    sp.IsElf ∧ (sp.LookupsInside ↔ sp.ElfFits) ∨ sp.IsBlob ∧ (sp.LookupsInside ↔ sp.BlobFits) := by
  have hcreated := hlst.allCreated sp hmem
  rcases hcreated.kind with hkind | hkind
  · exact .inl ⟨hkind, (lookupsInside_iff hcreated halloc).trans hkind.reaches_iff⟩
  · exact .inr ⟨hkind, (lookupsInside_iff hcreated halloc).trans hkind.reaches_iff⟩

/-- What objdump puts out for a blob with one instruction, and zeros behind it. -/
def blobText : List Char :=
  "kmem.0x00001000:     file format binary\n\n\nDisassembly of section .data:\n\n00001000 <.data>:\n    1000:\t8082\tret\n\t...\n".toList

def smallBlob : Section where
  __ := ObjDump.Parser.blobSection 0x1000 0x1004
  code := some [some 0x8082, some 0, some 0]
  fName := some [some none, some none]
  line := some [some 0, some 0]
  diss := some [some (some "ret".toList), some none]

theorem made_smallBlob : ObjDump.Made [smallBlob] := by
  have hparse : (match (ObjDump.Parser.parseObjDump 12 ⟨64, [], [], ⟨[]⟩⟩ 0 0x1000 0x1004).run
      ObjDump.answer (ObjDump.init 0 [] [some blobText]) with
    | .ok e' _ => decide (e'.codeSectionLst = [smallBlob])
    | .error _ _ => false) = true := by decide +kernel
  split at hparse
  case h_1 e' s' hrun =>
    rw [← of_decide_eq_true hparse]
    exact .parse .nil hrun
  case h_2 => cases hparse

def secondText : List Char :=
  "kmem.0x00002000:     file format binary\n\n\nDisassembly of section .data:\n\n00002000 <.data>:\n    2000:\t0001\tnop\n    2002:\t8082\tret\n".toList

def secondBlob : Section where
  __ := ObjDump.Parser.blobSection 0x2000 0x2004
  code := some [some 0x0001, some 0x8082, some 0]
  fName := some [some none, some none]
  line := some [some 0, some 0]
  diss := some [some (some "nop".toList), some (some "ret".toList)]

theorem made_blobs : ObjDump.Made [secondBlob, smallBlob] := by
  have hparse : (match (ObjDump.Parser.parseObjDump 12 ⟨64, [smallBlob], [], ⟨[]⟩⟩ 0 0x2000
      0x2004).run ObjDump.answer (ObjDump.init 0 [] [some secondText]) with
    | .ok e' _ => decide (e'.codeSectionLst = [secondBlob, smallBlob])
    | .error _ _ => false) = true := by decide +kernel
  split at hparse
  case h_1 e' s' hrun =>
    rw [← of_decide_eq_true hparse]
    exact .parse made_smallBlob hrun
  case h_2 => cases hparse

/-- Two blobs that are read one after the other. -/
theorem lookupsInside_iff_fits_blobs :
    (secondBlob.IsElf ∧ (secondBlob.LookupsInside ↔ secondBlob.ElfFits) ∨
      secondBlob.IsBlob ∧ (secondBlob.LookupsInside ↔ secondBlob.BlobFits)) ∧
    (smallBlob.IsElf ∧ (smallBlob.LookupsInside ↔ smallBlob.ElfFits) ∨
      smallBlob.IsBlob ∧ (smallBlob.LookupsInside ↔ smallBlob.BlobFits)) :=
  ⟨lookupsInside_iff_fits made_blobs List.mem_cons_self ⟨rfl, rfl, rfl, rfl⟩,
    lookupsInside_iff_fits made_blobs (.tail _ List.mem_cons_self) ⟨rfl, rfl, rfl, rfl⟩⟩

/-- The address behind the four bytes is accepted, and its half-word is behind the arrays. -/
theorem not_lookupsInside : ¬ ∀ (lst : List Section), ObjDump.Made lst → ∀ sp ∈ lst, sp.Allocated →
    ∀ addr, getSectionByAddress addr lst = some sp → sp.IndexInside addr := by
  intro hall
  have halloc : smallBlob.Allocated := ⟨rfl, rfl, rfl, rfl⟩
  have hinside := hall _ made_smallBlob smallBlob List.mem_cons_self halloc 0x1004 (by decide)
  have hcell := (hasCell_iff (n := 2) halloc.diss (by rintro cs ⟨⟩; rfl)).mp hinside.diss
  exact absurd hcell.2 (by decide)

end Section

end TraceDecoder
