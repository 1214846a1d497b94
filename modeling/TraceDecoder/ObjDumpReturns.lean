import TraceDecoder.ObjDumpCut

/-!
# The texts for which the parser for objdump returns

More fuel changes nothing where there was enough. So the parse of a text, however `read` divides it,
returns if and only if an end of line is ahead wherever it begins to skip a line behind `<unknown>`.
-/

namespace TraceDecoder

open Dialogue

namespace ObjDump

namespace Parser

variable {k k' : ℕ} (room : ℕ)

/-! ### More fuel -/

theorem more_skipEols (hk : k ≤ k') (eol : Bool) (r : ObjDumpTokenType × List Char) :
    Extends .outOfFuel (skipEols room k eol r) (skipEols room k' eol r) := by
  induction k generalizing k' eol r with
  | zero => exact .gaveUp _
  | succ k ih =>
    obtain ⟨k', rfl⟩ : ∃ j, k' = j + 1 := ⟨k' - 1, by omega⟩
    exact .ite (.bind (.refl _) fun r => ih (by omega) true r) (.refl _)

theorem more_scanName (hk : k ≤ k') : Extends .outOfFuel (scanName room k) (scanName room k') := by
  induction k generalizing k' with
  | zero => exact .gaveUp _
  | succ k ih =>
    obtain ⟨k', rfl⟩ : ∃ j, k' = j + 1 := ⟨k' - 1, by omega⟩
    refine .bind (.refl _) fun r => ?_
    split
    · exact ih (by omega)
    · exact .refl _
    · exact .refl _

theorem more_drivePath (hk : k ≤ k') (elfName : List Char) :
    Extends .outOfFuel (drivePath k elfName) (drivePath k' elfName) :=
  .bind (more_scanName 256 hk) fun _ => .refl _

theorem more_parseElfName (hk : k ≤ k') :
    Extends .outOfFuel (parseElfName k) (parseElfName k') := by
  refine .bind (more_scanName 256 hk) fun elfName => .bind (.refl _) fun _ => .bind (.refl _)
    fun ws => .bind ?_ fun _ => .refl _
  cases ws with
  | true => exact .refl _
  | false => exact more_drivePath hk elfName

theorem more_sectionFlags (hk : k ≤ k') (flags : BitVec 32) :
    Extends .outOfFuel (sectionFlags k flags) (sectionFlags k' flags) := by
  induction k generalizing k' flags with
  | zero => exact .gaveUp _
  | succ k ih =>
    obtain ⟨k', rfl⟩ : ∃ j, k' = j + 1 := ⟨k' - 1, by omega⟩
    refine .bind (.refl _) fun lex => ?_
    cases sectFlag lex with
    | none => exact .refl _
    | some flag =>
      refine .bind (.refl _) fun r => ?_
      split
      · exact ih (by omega) _
      · exact .refl _
      · exact .refl _

theorem more_parseSection (hk : k ≤ k') (vmaOffset : ADDRESS) :
    Extends .outOfFuel (parseSection k vmaOffset) (parseSection k' vmaOffset) := by
  refine .bind (.refl _) fun r => .ite (.refl _) <| .bind (.refl _) fun name => .bind (.refl _)
      fun size => .bind (.refl _) fun vma =>
    .bind (.refl _) fun _ => .bind (.refl _) fun offset => .bind (.refl _) fun lex => ?_
  cases alignments.lookup lex with
  | none => exact .refl _
  | some align => exact .bind (.refl _) fun _ => .bind (more_sectionFlags hk 0) fun _ => .refl _

theorem more_sections (hk : k ≤ k') (vmaOffset : ADDRESS) (lst : List Section) :
    Extends .outOfFuel (sections vmaOffset k lst) (sections vmaOffset k' lst) := by
  induction k generalizing k' lst with
  | zero => exact .gaveUp _
  | succ k ih =>
    obtain ⟨k', rfl⟩ : ∃ j, k' = j + 1 := ⟨k' - 1, by omega⟩
    exact .bind (more_parseSection (by omega) vmaOffset) fun ⟨_, r⟩ => .ite (ih (by omega) _)
      (.refl _)

theorem more_parseSectionList (hk : k ≤ k') (lst : List Section) (vmaOffset : ADDRESS) :
    Extends .outOfFuel (parseSectionList k lst vmaOffset) (parseSectionList k' lst vmaOffset) :=
  .bind (.refl _) fun r => .bind (more_skipEols 256 hk false r) fun _ => .ite (.refl _) <|
    .bind (.refl _) fun _ => .bind (.refl _) fun _ => .bind (.refl _) fun _ => .bind (.refl _)
      fun _ =>
    .bind (more_sections hk vmaOffset lst) fun _ => .refl _

theorem more_scoot (hk : k ≤ k') (type : ObjDumpTokenType) :
    Extends .outOfFuel (scoot k type) (scoot k' type) := by
  induction k generalizing k' type with
  | zero => exact .gaveUp _
  | succ k ih =>
    obtain ⟨k', rfl⟩ : ∃ j, k' = j + 1 := ⟨k' - 1, by omega⟩
    exact .ite (.refl _) (.bind (.refl _) fun r => ih (by omega) r.1)

theorem more_unknownFile (hk : k ≤ k') : Extends .outOfFuel (unknownFile k) (unknownFile k') :=
  .bind (.refl _) fun _ => .ite (.bind (.refl _) fun _ => .bind (.refl _) fun r =>
    .ite (.bind (.refl _) fun _ => more_scoot hk r.1) (.ite (more_scoot hk r.1) (.refl _)))
      (.refl _)

theorem more_listing (hk : k ≤ k') (s : Listing) (r : ObjDumpTokenType × List Char) :
    Extends .outOfFuel (listing k s r) (listing k' s r) := by
  induction k generalizing k' s r with
  | zero => exact .gaveUp _
  | succ k ih =>
    obtain ⟨k', rfl⟩ : ∃ j, k' = j + 1 := ⟨k' - 1, by omega⟩
    refine .bind (more_skipEols 1024 (by omega) false r) fun ⟨eol, type, lex⟩ => ?_
    dsimp only
    split
    · exact .bind (more_unknownFile (by omega)) fun _ => ih (by omega) s _
    · refine .bind (.refl _) fun s' => ?_
      cases s' with
      | none => exact .refl _
      | some s' => exact .bind (.refl _) fun r => ih (by omega) s' r
    · exact .refl _

theorem more_parseDisassemblyList (hk : k ≤ k') (eType : ElfType) (lst : List Section)
    (root : SrcFileRoot) (startAddr : ADDRESS) :
    Extends .outOfFuel (parseDisassemblyList k eType lst root startAddr)
      (parseDisassemblyList k' eType lst root startAddr) := by
  refine .bind (.refl _) fun _ => .bind (.refl _) fun _ => .bind (.refl _) fun lex =>
    .bind (.refl _) fun lex => ?_
  cases Section.getSectionByName lex lst with
  | none => exact .refl _
  | some sp => exact .bind (.refl _) fun _ => .bind (.refl _) fun _ => .bind (more_listing hk _ _) fun _ => .refl _

theorem more_symbols (hk : k ≤ k') (lst : List Section) (vmaOffset : ADDRESS) (s : SymTable) :
    Extends .outOfFuel (symbols lst vmaOffset k s) (symbols lst vmaOffset k' s) := by
  induction k generalizing k' s with
  | zero => exact .gaveUp _
  | succ k ih =>
    obtain ⟨k', rfl⟩ : ∃ j, k' = j + 1 := ⟨k' - 1, by omega⟩
    refine .bind (.refl _) fun r => .bind (more_skipEols 256 (by omega) false r)
      fun ⟨_, type, lex⟩ => .ite (.refl _) <| .ite (.bind (.refl _) fun _ => .bind (.refl _)
        fun r => .bind (more_skipEols 256 (by omega) false r) fun _ => .refl _) ?_
    cases isStringAHexNumber lex with
    | none => exact .refl _
    | some addr =>
      refine .bind (.refl _) fun ⟨secName, symName, symFlags, symSize⟩ => ?_
      cases symName with
      | some symName => exact ih (by omega) _
      | none => exact ih (by omega) _

theorem more_parseSymbolTable (hk : k ≤ k') (syms : List Sym) (lst : List Section)
    (vmaOffset : ADDRESS) :
    Extends .outOfFuel (parseSymbolTable k syms lst vmaOffset)
      (parseSymbolTable k' syms lst vmaOffset) :=
  .bind (.refl _) fun _ => .bind (.refl _) fun _ => .bind (.refl _) fun _ => more_symbols hk
    lst vmaOffset _

theorem more_tables (hk : k ≤ k') (eType : ElfType) (vmaOffset startAddr : ADDRESS) (e : ElfData)
    (r : ObjDumpTokenType × List Char) :
    Extends .outOfFuel (tables eType vmaOffset startAddr k e r)
      (tables eType vmaOffset startAddr k' e r) := by
  induction k generalizing k' e r with
  | zero => exact .gaveUp _
  | succ k ih =>
    obtain ⟨k', rfl⟩ : ∃ j, k' = j + 1 := ⟨k' - 1, by omega⟩
    obtain ⟨type, lex⟩ := r
    exact .ite (.refl _) <| .ite
      (.bind (more_parseDisassemblyList (by omega) _ _ _ _) fun _ => ih (by omega) _ _)
      (.ite (.bind (more_parseSymbolTable (by omega) _ _ _) fun _ => ih (by omega) _ _) (.refl _))

theorem more_parseObjDump (hk : k ≤ k') (e : ElfData) (vmaOffset startAddr endAddr : ADDRESS) :
    Extends .outOfFuel (parseObjDump k e vmaOffset startAddr endAddr)
      (parseObjDump k' e vmaOffset startAddr endAddr) := by
  refine .bind (more_parseElfName hk) fun ⟨_, et⟩ => ?_
  dsimp only
  cases archType e.archSize et with
  | none => exact .refl _
  | some arch =>
    exact .ite (.refl _) <| .bind (.refl _) fun _ => .bind (more_parseSectionList hk _ _)
        fun ⟨_, r⟩ =>
      .bind (more_skipEols _ hk false r) fun _ => .bind (more_tables hk _ _ _ _ _) fun _ => .refl _

/-! ### The result -/

variable (e : ElfData) (vmaOffset startAddr endAddr : ADDRESS)

def Returns (s : ObjDump) : Prop :=
  ∃ fuel, ∀ s', (parseObjDump fuel e vmaOffset startAddr endAddr).run answer s ≠
    .error .outOfFuel s'

variable {e vmaOffset startAddr endAddr} {s : ObjDump} {t : List Char}

theorem returns_iff_text (h : s.Holds t) : Returns e vmaOffset startAddr endAddr s ↔
    ∃ fuel, ∀ t', (parseObjDump fuel e vmaOffset startAddr endAddr).run Text.answer t ≠
      .error .outOfFuel t' := by
  refine exists_congr fun fuel => ?_
  have hrun := run_text (parseObjDump fuel e vmaOffset startAddr endAddr) s t h
  generalize (parseObjDump fuel e vmaOffset startAddr endAddr).run answer s = r at hrun ⊢
  generalize (parseObjDump fuel e vmaOffset startAddr endAddr).run Text.answer t = r' at hrun ⊢
  cases r with
  | ok =>
    cases r' with
    | ok => exact ⟨fun _ => nofun, fun _ => nofun⟩
    | error => exact hrun.elim
  | error e₁ s' =>
    cases r' with
    | ok => exact hrun.elim
    | error e₂ t' =>
      rw [hrun.1]
      exact ⟨fun hne u hu => hne s' (by cases hu; rfl), fun hne u hu => hne t' (by cases hu; rfl)⟩

/-- Where the text does not end in a line of an unknown file, the parse ends. -/
theorem exists_fuel (h : ¬ CutInUnknown t) :
    ∃ fuel, ∀ t', (parseObjDump fuel e vmaOffset startAddr endAddr).run Text.answer t ≠
      .error .outOfFuel t' := by
  refine ⟨t.length + 4, fun t' hrun => ?_⟩
  obtain ⟨w, hw, hstuck⟩ :=
    (stalls_parseObjDump le_rfl e vmaOffset startAddr endAddr t le_rfl).mp ⟨t', hrun⟩
  exact h (cutInUnknown_of_stuck hw hstuck)

/-- Where the parse gets stuck, it takes all fuel there is. -/
theorem no_fuel {k : ℕ} {w : Note × List Char}
    (hw : w ∈ (parseObjDump k e vmaOffset startAddr endAddr).notes Text.answer t)
    (hstuck : Stuck w) (fuel : ℕ) :
    ∃ t', (parseObjDump fuel e vmaOffset startAddr endAddr).run Text.answer t =
      .error .outOfFuel t' := by
  by_contra hnone
  have henough : ∀ t', (parseObjDump fuel e vmaOffset startAddr endAddr).run Text.answer t ≠
      .error .outOfFuel t' :=
    fun t' h => hnone ⟨t', h⟩
  have hmore : (parseObjDump (max k (max fuel (t.length + 4))) e vmaOffset startAddr endAddr).run
      Text.answer t = (parseObjDump fuel e vmaOffset startAddr endAddr).run Text.answer t :=
    (more_parseObjDump (by omega) e vmaOffset startAddr endAddr).run_eq t henough
  have hnotes := (more_parseObjDump (show k ≤ max k (max fuel (t.length + 4)) by omega) e vmaOffset
    startAddr endAddr).notes_subset t hw
  obtain ⟨t', hrun⟩ :=
    (stalls_parseObjDump (show t.length + 4 ≤ max k (max fuel (t.length + 4)) by omega) e vmaOffset
      startAddr
    endAddr t (Nat.le_refl _)).mpr ⟨w, hnotes, hstuck⟩
  exact henough t' (hmore ▸ hrun)

theorem returns_of_not_cut (h : ¬ CutInUnknown t) (stdoutPipe : ℕ) (pipeBuffer : List Char)
    (d : Division t) :
    Returns e vmaOffset startAddr endAddr (init stdoutPipe pipeBuffer (d.chunks.map some)) :=
  (returns_iff_text (holds_init stdoutPipe pipeBuffer d)).mpr (exists_fuel h)

theorem not_returns_of_stuck {k : ℕ} {w : Note × List Char}
    (hw : w ∈ (parseObjDump k e vmaOffset startAddr endAddr).notes Text.answer t) (hstuck : Stuck w)
    (stdoutPipe : ℕ) (pipeBuffer : List Char) (d : Division t) :
    ¬ Returns e vmaOffset startAddr endAddr (init stdoutPipe pipeBuffer (d.chunks.map some)) := by
  rw [returns_iff_text (holds_init stdoutPipe pipeBuffer d)]
  rintro ⟨fuel, hfuel⟩
  obtain ⟨t', hrun⟩ := no_fuel hw hstuck fuel
  exact hfuel t' hrun

def cutText : List Char :=
  ("a: file format elf32-littleriscv\nSections:\nIdx Name Size VMA LMA File off Algn\n" ++
    "0 .text 4 0 0 0 2**1\nCODE\nDisassembly of section .text:\n<unknown>:7").toList

end Parser

end ObjDump

end TraceDecoder
