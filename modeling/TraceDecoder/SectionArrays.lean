import TraceDecoder.ObjDumpArrays

/-!
# The arrays of the sections

What is known of each section that the parser makes: its kind, which says what the end address
means, and the lengths of its arrays, which no line of a listing changes.
-/

namespace TraceDecoder

open Dialogue

theorem Cells.length_store {α : Type} (cells : Cells α) (index : ℤ) (a : α) :
    (cells.store index a).length = cells.length := by
  unfold store
  split_ifs
  · rfl
  · exact List.length_set

namespace Section

def IsElf (sp : Section) : Prop := sp.endAddr = sp.startAddr + sp.size.setWidth 64 - 1

def IsBlob (sp : Section) : Prop :=
  sp.vmaOffset = 0 ∧ sp.size = (sp.endAddr - sp.startAddr).setWidth 32

/-- A section as the parser makes it: an array that is there has been
allocated for its half-words. -/
structure Created (sp : Section) : Prop where
  kind : sp.IsElf ∨ sp.IsBlob
  code : ∀ cells ∈ sp.code, cells.length = sp.halves.toNat + 1
  diss : ∀ cells ∈ sp.diss, cells.length = sp.halves.toNat
  fName : ∀ cells ∈ sp.fName, cells.length = sp.halves.toNat
  line : ∀ cells ∈ sp.line, cells.length = sp.halves.toNat

theorem Created.of_new {sp : Section} (hkind : sp.IsElf ∨ sp.IsBlob) (hcode : sp.code = none)
    (hdiss : sp.diss = none) (hfName : sp.fName = none) (hline : sp.line = none) : sp.Created := by
  refine ⟨hkind, ?_, ?_, ?_, ?_⟩
  · rw [hcode]
    exact nofun
  · rw [hdiss]
    exact nofun
  · rw [hfName]
    exact nofun
  · rw [hline]
    exact nofun

theorem length_getD_allocate {α : Type} {cells : Option (Cells α)} {count : ℕ}
    (hcells : ∀ cs ∈ cells, cs.length = count)
    (inits : ℤ) (a : α) : (cells.getD (.allocate count inits a)).length = count := by
  cases cells with
  | none => exact ObjDump.length_allocate count inits a
  | some cs => exact hcells cs rfl

theorem Created.allocate {sp : Section} (h : sp.Created) : sp.allocate.Created where
  kind := h.kind
  code cells hcells := by
    cases hcells
    rw [ObjDump.halves_toNat_succ]
    exact length_getD_allocate h.code _ _
  diss cells hcells := by
    cases hcells
    exact length_getD_allocate h.diss _ _
  fName cells hcells := by
    cases hcells
    exact length_getD_allocate h.fName _ _
  line cells hcells := by
    cases hcells
    exact length_getD_allocate h.line _ _

theorem created_blobSection (startAddr endAddr : ADDRESS) :
    (ObjDump.Parser.blobSection startAddr endAddr).Created :=
  .of_new (.inr ⟨rfl, rfl⟩) rfl rfl rfl rfl

theorem mem_update {sp sp' : Section} {lst : List Section} (h : sp' ∈ sp.update lst) :
    sp' = sp ∨ sp' ∈ lst := by
  induction lst with
  | nil => cases h
  | cons head lst ih =>
    unfold update at h
    split_ifs at h
    · rcases List.mem_cons.mp h with rfl | hmem
      · exact .inl rfl
      · exact .inr (List.mem_cons_of_mem _ hmem)
    · rcases List.mem_cons.mp h with rfl | hmem
      · exact .inr List.mem_cons_self
      · exact (ih hmem).imp_right (List.mem_cons_of_mem _)

end Section

namespace ObjDump

namespace Parser

def AllCreated (lst : List Section) : Prop := ∀ sp ∈ lst, sp.Created

theorem Listing.created_disassembled {s : Listing} (h : s.sp.Created) (addr : ADDRESS) (length : ℕ)
    (value : BitVec 32)
    (text : List Char) : (s.disassembled addr length value text).sp.Created where
  kind := h.kind
  code cells hcells := by
    obtain ⟨cs, hcs, rfl⟩ := Option.map_eq_some_iff.mp hcells
    refine Eq.trans ?_ (h.code cs hcs)
    unfold storeCode
    split_ifs
    · rw [Cells.length_store, Cells.length_store]
    · exact Cells.length_store ..
  diss cells hcells := by
    obtain ⟨cs, hcs, rfl⟩ := Option.map_eq_some_iff.mp hcells
    exact (Cells.length_store ..).trans (h.diss cs hcs)
  fName cells hcells := by
    obtain ⟨cs, hcs, rfl⟩ := Option.map_eq_some_iff.mp hcells
    exact (Cells.length_store ..).trans (h.fName cs hcs)
  line cells hcells := by
    obtain ⟨cs, hcs, rfl⟩ := Option.map_eq_some_iff.mp hcells
    exact (Cells.length_store ..).trans (h.line cs hcs)

/-! ### One line and a listing -/

theorem created_numberLine {s : Listing} (h : s.sp.Created) (addr : ADDRESS) :
    (numberLine s addr).Ensures fun s' => s'.sp.Created := by
  refine .skip _ fun l => ?_
  cases l with
  | label => exact h
  | func => exact h
  | path text value => exact .skip _ fun _ => h
  | diss text length value =>
    exact .skip _ fun _ => .skip _ fun _ => .skip _ fun _ => .skip _ fun _ => .skip _ fun _ =>
      Listing.created_disassembled h addr length value text

theorem created_nameLine {s : Listing} (h : s.sp.Created) (lex : List Char) :
    (nameLine s lex).Ensures fun s' => s'.sp.Created := by
  refine .skip _ fun l => ?_
  cases l with
  | label => exact trivial
  | diss text length value => exact trivial
  | path text value => exact .skip _ fun _ => .skip _ fun _ => h
  | func => exact h

theorem created_listingLine {s : Listing} (h : s.sp.Created) (eol : Bool) (lex : List Char) :
    (listingLine s eol lex).Ensures fun s' => ∀ s₁ ∈ s', s₁.sp.Created := by
  have hsome {s₁ s' : Listing} (hs : s₁.sp.Created) (hmem : s' ∈ some s₁) : s'.sp.Created := by
    cases hmem
    exact hs
  refine Ensures.ite (fun _ => .skip _ fun _ => fun _ => hsome h) fun _ => ?_
  cases isStringAHexNumber lex with
  | some addr => exact (created_numberLine h addr).bind fun _ hs _ => hsome hs
  | none =>
    exact Ensures.ite (fun _ => nofun) fun _ => Ensures.ite (fun _ => .skip _ fun _ => fun _ =>
      hsome h) fun _ => (created_nameLine h lex).bind fun _ hs _ => hsome hs

theorem created_listing (n : ℕ) {s : Listing} (h : s.sp.Created)
    (r : ObjDumpTokenType × List Char) : (listing n s r).Ensures fun r' => r'.1.sp.Created := by
  induction n generalizing s r with
  | zero => exact trivial
  | succ n ih =>
    refine .skip _ fun ⟨eol, type, lex⟩ => ?_
    dsimp only
    split
    · exact .skip _ fun _ => ih h _
    · refine (created_listingLine h eol lex).bind fun s' hs => ?_
      cases s' with
      | none => exact .skip _ fun _ => h
      | some s' => exact .skip _ fun r => ih (hs s' rfl) r
    · exact .skip _ fun _ => h

theorem created_parseDisassemblyList (fuel : ℕ) (eType : ElfType) {lst : List Section}
    (h : AllCreated lst) (root : SrcFileRoot)
    (startAddr : ADDRESS) : (parseDisassemblyList fuel eType lst root startAddr).Ensures
      fun r => AllCreated r.1 := by
  refine .skip _ fun _ => .skip _ fun _ => .skip _ fun _ => .skip _ fun lex => ?_
  cases hfind : Section.getSectionByName lex lst with
  | none => exact trivial
  | some sp =>
    have hsp := h sp (List.mem_of_find?_eq_some hfind)
    refine .skip _ fun _ => .skip _ fun _ => (created_listing fuel hsp.allocate (.eol, [])).bind
      fun r hr => ?_
    intro sp' hmem
    rcases Section.mem_update hmem with rfl | hmem
    · exact hr
    · exact h sp' hmem

/-! ### All of it -/

theorem created_parseSection (fuel : ℕ) (vmaOffset : ADDRESS) :
    (parseSection fuel vmaOffset).Ensures fun r => AllCreated r.1.toList := by
  refine .skip _ fun r => Ensures.ite (fun _ => .skip _ fun _ => nofun) fun _ => ?_
  refine .skip _ fun name => .skip _ fun size => .skip _ fun vma => .skip _ fun _ =>
    .skip _ fun offset => .skip _ fun lex => ?_
  cases alignments.lookup lex with
  | none => exact trivial
  | some align =>
    refine .skip _ fun _ => .skip _ fun ⟨flags, r⟩ => Ensures.ite (fun _ => .skip _ fun _ =>
      .skip _ fun _ => ?_) fun _ => .skip _ fun _ => nofun
    intro sp hmem
    rw [List.mem_singleton.mp hmem]
    exact .of_new (.inl rfl) rfl rfl rfl rfl

theorem created_sections (vmaOffset : ADDRESS) (n : ℕ) {lst : List Section} (h : AllCreated lst) :
    (sections vmaOffset n lst).Ensures fun r => AllCreated r.1 := by
  induction n generalizing lst with
  | zero => exact trivial
  | succ n ih =>
    refine (created_parseSection n vmaOffset).bind fun r hnew => ?_
    have hall : AllCreated (r.1.toList ++ lst) := List.forall_mem_append.mpr ⟨hnew, h⟩
    exact Ensures.ite (fun _ => ih hall) fun _ => hall

theorem created_parseSectionList (fuel : ℕ) {lst : List Section} (h : AllCreated lst)
    (vmaOffset : ADDRESS) :
    (parseSectionList fuel lst vmaOffset).Ensures fun r => AllCreated r.1 := by
  refine .skip _ fun _ => .skip _ fun _ => Ensures.ite (fun _ => .skip _ fun _ => h) fun _ => ?_
  exact .skip _ fun _ => .skip _ fun _ => .skip _ fun _ => .skip _ fun _ =>
    (created_sections vmaOffset fuel h).bind fun _ hr => .skip _ fun _ => hr

theorem created_tables (eType : ElfType) (vmaOffset startAddr : ADDRESS) (n : ℕ) {e : ElfData}
    (h : AllCreated e.codeSectionLst) (r : ObjDumpTokenType × List Char) :
    (tables eType vmaOffset startAddr n e r).Ensures fun r' => AllCreated r'.1.codeSectionLst := by
  induction n generalizing e r with
  | zero => exact trivial
  | succ n ih =>
    obtain ⟨type, lex⟩ := r
    refine Ensures.ite (fun _ => h) fun _ => Ensures.ite (fun _ => ?_) fun _ => Ensures.ite
      (fun _ => ?_) fun _ => trivial
    · exact (created_parseDisassemblyList n eType h e.srcFileRoot _).bind fun _ hlst => ih hlst _
    · exact .skip _ fun ⟨syms, r⟩ => ih (e := { e with symLst := syms }) h r

theorem created_parseObjDump (fuel : ℕ) {e : ElfData} (h : AllCreated e.codeSectionLst)
    (vmaOffset startAddr endAddr : ADDRESS) :
    (parseObjDump fuel e vmaOffset startAddr endAddr).Ensures fun e' => AllCreated
      e'.codeSectionLst := by
  refine .skip _ fun ⟨_, et⟩ => ?_
  dsimp only
  cases archType e.archSize et with
  | none => exact trivial
  | some arch =>
    have hfirst : AllCreated (if isBlob arch.1 then [Parser.blobSection startAddr endAddr]
        else []) := by
      intro sp hmem
      split_ifs at hmem
      · rw [List.mem_singleton.mp hmem]
        exact Section.created_blobSection startAddr endAddr
      · cases hmem
    refine Ensures.ite (fun _ => trivial) fun _ => .skip _ fun _ =>
        (created_parseSectionList fuel hfirst vmaOffset).bind fun _ hsp =>
      .skip _ fun _ => (created_tables _ vmaOffset startAddr fuel hsp _).bind fun _ hlst => ?_
    exact Ensures.ite (fun _ => List.forall_mem_append.mpr ⟨hlst, h⟩) fun _ => trivial

end Parser

/-- The lists of sections that one parse after the other makes, on whatever objdump puts out. -/
inductive Made : List Section → Prop
  | nil : Made []
  | parse {fuel : ℕ} {e e' : Parser.ElfData} {vmaOffset startAddr endAddr : ADDRESS}
      {s s' : ObjDump} (hlst : Made e.codeSectionLst)
      (hrun : (Parser.parseObjDump fuel e vmaOffset startAddr endAddr).run answer s = .ok e' s') :
        Made e'.codeSectionLst

theorem Made.allCreated {lst : List Section} (h : Made lst) : Parser.AllCreated lst := by
  induction h with
  | nil => exact nofun
  | parse _ hrun ih => exact (Parser.created_parseObjDump _ ih _ _ _).run hrun

end ObjDump

end TraceDecoder
