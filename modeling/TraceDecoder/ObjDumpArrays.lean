import Mathlib.Data.List.Induction
import TraceDecoder.ObjDumpRecording

/-!
# The arrays behind a listing

What is in the arrays of a section behind its listing, and when that is what the listing says: the
drive of a path is kept for the letters from A to F only.
-/

namespace TraceDecoder

open CString Dialogue

/-! ### Cells written one after the other -/

namespace Cells

variable {α : Type}

def storeAll (cells : Cells α) (entries : List (ℕ × α)) : Cells α :=
  entries.foldl (fun cells x => cells.set x.1 (some x.2)) cells

theorem length_storeAll (cells : Cells α) (entries : List (ℕ × α)) :
    (cells.storeAll entries).length = cells.length := by
  induction entries generalizing cells with
  | nil => rfl
  | cons x entries ih => exact (ih _).trans List.length_set

theorem storeAll_append (cells : Cells α) (entries entries' : List (ℕ × α)) :
    cells.storeAll (entries ++ entries') = (cells.storeAll entries).storeAll entries' :=
  List.foldl_append

theorem store_natCast (cells : Cells α) (i : ℕ) (a : α) :
    cells.store i a = cells.set i (some a) := by
  rw [store, if_neg (by omega), Int.toNat_natCast]

end Cells

namespace ObjDump

variable {α β : Type}

theorem lastAt_append (entries : List (ℕ × α)) (x : ℕ × α) (i : ℕ) :
    lastAt (entries ++ [x]) i = if i = x.1 then some x.2 else lastAt entries i := by
  rw [lastAt, List.reverse_append, List.reverse_singleton, List.singleton_append, List.lookup_cons]
  by_cases h : i = x.1
  · rw [if_pos h, beq_iff_eq.mpr h]
  · rw [if_neg h, beq_eq_false_iff_ne.mpr h]
    rfl

theorem lastAt_map (f : α → β) (entries : List (ℕ × α)) (i : ℕ) :
    lastAt (entries.map fun x => (x.1, f x.2)) i = (lastAt entries i).map f := by
  induction entries using List.reverseRecOn with
  | nil => rfl
  | append_singleton entries x ih =>
    rw [List.map_append, List.map_singleton, lastAt_append, lastAt_append, ih]
    split_ifs <;> rfl

theorem exists_of_lastAt {entries : List (ℕ × α)} {i : ℕ} {a : α} (h : lastAt entries i = some a) :
    (i, a) ∈ entries := by
  induction entries using List.reverseRecOn with
  | nil => cases h
  | append_singleton entries x ih =>
    rw [lastAt_append] at h
    split_ifs at h with hi
    · cases h
      rw [hi]
      simp
    · exact List.mem_append_left _ (ih h)

theorem getElem?_storeAll (cells : Cells α) (entries : List (ℕ × α)) (i : ℕ) :
    (cells.storeAll entries)[i]? = match lastAt entries i with
      | some a => if i < cells.length then some (some a) else none
      | none => cells[i]? := by
  induction entries using List.reverseRecOn with
  | nil => rfl
  | append_singleton entries x ih =>
    rw [Cells.storeAll_append, lastAt_append]
    change ((cells.storeAll entries).set x.1 (some x.2))[i]? = _
    by_cases hi : i = x.1
    · rw [if_pos hi, hi, List.getElem?_set_self', ← hi]
      dsimp only
      by_cases hlt : i < cells.length
      · rw [if_pos hlt, List.getElem?_eq_getElem (by rwa [Cells.length_storeAll])]
        rfl
      · rw [if_neg hlt, List.getElem?_eq_none (by rw [Cells.length_storeAll]; omega)]
        rfl
    · rw [if_neg hi, List.getElem?_set_ne (Ne.symm hi), ih]

/-! ### The arrays behind a listing -/

theorem index_of_inside {l : InstLine} {s : Parser.Listing} (h : l.Inside s.sp) :
    s.index l.addr = (l.place s.sp.startAddr : ℤ) := by
  have hdiff : (l.addr - s.sp.startAddr).toNat < 2 ^ 32 := h.2.trans s.sp.size.isLt
  have hnat : (((l.addr - s.sp.startAddr) / 2).setWidth 32).toNat = l.place s.sp.startAddr := by
    rw [BitVec.toNat_setWidth, BitVec.toNat_udiv, InstLine.place]
    exact Nat.mod_eq_of_lt ((Nat.div_le_self _ _).trans_lt hdiff)
  rw [Parser.Listing.index, BitVec.toInt_eq_toNat_of_lt, hnat]
  rw [hnat, InstLine.place]
  omega

/-- The entries of the instructions, each with what `f` makes of it and of its source line. -/
def entries (startAddr : ADDRESS) (f : InstLine × Option SourceLine → α)
    (current : Option SourceLine) (lines : List ListingLine) :
    List (ℕ × α) :=
  (instructions current lines).map fun x => (x.1.place startAddr, f x)

def codeEntries (startAddr : ADDRESS) (current : Option SourceLine) (lines : List ListingLine) :
    List (ℕ × BitVec 16) :=
  (instructions current lines).flatMap fun x => x.1.halfWords startAddr

def enterAll (sp : Section) (current : Option SourceLine) (lines : List ListingLine) : Section :=
  { sp with
    code := sp.code.map fun cells => cells.storeAll (codeEntries sp.startAddr current lines)
    diss := sp.diss.map fun cells => cells.storeAll (entries sp.startAddr (fun x => some x.1.text)
      current lines)
    fName := sp.fName.map fun cells => cells.storeAll
      (entries sp.startAddr (fun x => x.2.map SourceLine.recorded) current lines)
    line := sp.line.map fun cells =>
      cells.storeAll (entries sp.startAddr
        (fun x => BitVec.ofNat 32 ((x.2.map fun l => l.line.value).getD 0)) current lines) }

theorem storeCode_eq {l : InstLine} {s : Parser.Listing} (h : l.Inside s.sp)
    (cells : Cells (BitVec 16)) :
    s.storeCode l.addr (if l.encoding.digits.length = 4 then 16 else 32) l.value cells =
      cells.storeAll (l.halfWords s.sp.startAddr) := by
  unfold Parser.Listing.storeCode InstLine.halfWords
  rw [index_of_inside h]
  by_cases hlength : l.encoding.digits.length = 4
  · rw [if_pos hlength, if_pos hlength, if_neg (by decide), Cells.store_natCast]
    rfl
  · rw [if_neg hlength, if_neg hlength, if_pos rfl, Cells.store_natCast, ← Int.natCast_succ,
      Cells.store_natCast]
    rfl

/-- The lines one after the other enter what the instructions say. -/
theorem foldl_enter (lines : List ListingLine) (s : Parser.Listing) (current : Option SourceLine)
    (hfile : s.fName = current.map SourceLine.recorded)
    (hline : s.line = BitVec.ofNat 32 ((current.map fun l => l.line.value).getD 0))
    (hinside : ∀ x ∈ instructions current lines, x.1.Inside s.sp) :
    (lines.foldl Parser.Listing.enter s).sp = enterAll s.sp current lines := by
  induction lines generalizing s current with
  | nil =>
    have hnone {α : Type} (cells : Option (Cells α)) : cells.map (fun cells => cells.storeAll []) =
        cells := by
      cases cells <;> rfl
    simp only [enterAll, entries, codeEntries, instructions, List.map_nil, List.flatMap_nil, hnone]
    rfl
  | cons line lines ih =>
    cases line with
    | blank => exact ih s current hfile hline hinside
    | label address name => exact ih s.reset none rfl rfl hinside
    | func name => exact ih s.reset none rfl rfl hinside
    | dots indent => exact ih s.reset none rfl rfl hinside
    | source l => exact ih _ (some l) rfl rfl hinside
    | inst l =>
      have hl : l.Inside s.sp := hinside (l, current) List.mem_cons_self
      have hstore {α : Type} (cells : Option (Cells α)) (a : α) (later : List (ℕ × α)) :
          (cells.map fun cells => cells.store (s.index l.addr) a).map
            (fun cells => cells.storeAll later) = cells.map fun cells => cells.storeAll
              ((l.place s.sp.startAddr, a) :: later) := by
        rw [Option.map_map]
        refine congrArg (Option.map · cells) (funext fun cells => ?_)
        rw [Function.comp_apply, index_of_inside hl, Cells.store_natCast]
        rfl
      have hcode (later : List (ℕ × BitVec 16)) :
          (s.sp.code.map (s.storeCode l.addr (if l.encoding.digits.length = 4 then 16 else 32)
              l.value)).map (fun cells => cells.storeAll later) =
            s.sp.code.map fun cells => cells.storeAll (l.halfWords s.sp.startAddr ++ later) := by
        rw [Option.map_map]
        refine congrArg (Option.map · s.sp.code) (funext fun cells => ?_)
        rw [Function.comp_apply, storeCode_eq hl, Cells.storeAll_append]
      have hrest :=
        ih (s.enter (.inst l)) current hfile hline fun x hx => hinside x (List.mem_cons_of_mem _ hx)
      rw [List.foldl_cons, hrest]
      simp only [enterAll, Parser.Listing.enter, Parser.Listing.disassembled, hcode, hstore,
        hfile, hline]
      rfl

/-! ### What is kept of the source lines -/

/-- The drive is a digit of the hexadecimal system in upper case, and the number fits in 32 bits. -/
structure SourceLine.Kept (l : SourceLine) : Prop where
  drive : ∀ d ∈ l.drive, 'A' ≤ d ∧ d ≤ 'F'
  number : l.line.value < 2 ^ 32

theorem recorded_eq_file_iff (l : SourceLine) : l.recorded = l.file ↔ ∀ d ∈ l.drive, 'A' ≤ d ∧
    d ≤ 'F' := by
  unfold SourceLine.recorded SourceLine.file
  cases hdrive : l.drive with
  | none => exact ⟨fun _ => nofun, fun _ => rfl⟩
  | some d =>
    have hfile : driveText (some d) ++ l.path = [d] ++ ':' :: l.path := rfl
    have halpha : d.isAlpha = true := l.letter d hdrive
    dsimp only
    rw [hfile]
    by_cases hdigit : IsDigit 16 d
    · have hupper : ∀ d ∈ "0123456789abcdefABCDEF".toList, d.isAlpha = true →
          (Parser.hexUpper (BitVec.ofNat 32 (digitVal d)) = [d] ↔ 'A' ≤ d ∧ d ≤ 'F') := by
            decide +kernel
      rw [if_pos hdigit, List.append_cancel_right_eq, hupper d (Parser.hexDigit_mem hdigit) halpha]
      exact ⟨fun h c hc => by cases hc; exact h, fun h => h d rfl⟩
    · rw [if_neg hdigit]
      refine ⟨fun h => ?_, fun h => absurd ?_ hdigit⟩
      · have hlength := congrArg List.length h
        rw [List.length_append, List.length_singleton, List.length_cons] at hlength
        omega
      · obtain ⟨hlow, hhigh⟩ := h d rfl
        have hlow : 65 ≤ d.toNat := hlow
        have hhigh : d.toNat ≤ 70 := hhigh
        unfold IsDigit digitVal
        split_ifs <;> omega

/-- The file and the number of every instruction that is not overwritten are kept, and there is room
for the instructions. -/
structure Kept (sp : Section) (lines : List ListingLine) : Prop where
  room : instructions none lines ≠ [] → sp.size ≠ BitVec.allOnes 32
  source : ∀ i x, lastAt (entries sp.startAddr id none lines) i = some x → ∀ l ∈ x.2, l.Kept

theorem entries_eq_map (startAddr : ADDRESS) (f : InstLine × Option SourceLine → α)
    (lines : List ListingLine) :
    entries startAddr f none lines = (entries startAddr id none lines).map fun x =>
      (x.1, f x.2) := by
  rw [entries, entries, List.map_map]
  rfl

/-- Entries written as `g` says are those that `f` says where these agree
and the cells are there. -/
theorem entered_iff (before : Cells α) (es : List (ℕ × β)) (f g : β → α) :
    Entered before (es.map fun x => (x.1, f x.2)) (before.storeAll (es.map fun x => (x.1, g x.2))) ↔
      ∀ i x, lastAt es i = some x → i < before.length ∧ g x = f x := by
  unfold Entered
  simp only [getElem?_storeAll, lastAt_map]
  refine forall_congr' fun i => ?_
  cases lastAt es i with
  | none =>
    constructor
    · intro _ x hx
      cases hx
    · intro _
      rfl
  | some x =>
    simp only [Option.map_some, Option.some.injEq, forall_eq']
    by_cases hlt : i < before.length
    · rw [if_pos hlt]
      simp [hlt]
    · rw [if_neg hlt]
      simp [hlt]

theorem toNat_storeAll (before : Cells (BitVec 32)) (es : List (ℕ × BitVec 32)) :
    Cells.toNat (before.storeAll es) = (Cells.toNat before).storeAll
      (es.map fun x => (x.1, x.2.toNat)) := by
  induction es generalizing before with
  | nil => rfl
  | cons x es ih =>
    refine (ih _).trans (congrArg (Cells.storeAll · _) ?_)
    exact List.map_set

theorem exists_lastAt {es : List (ℕ × α)} (h : es ≠ []) : ∃ i x, lastAt es i = some x := by
  rw [← List.dropLast_concat_getLast h]
  exact ⟨(es.getLast h).1, (es.getLast h).2, by rw [lastAt_append, if_pos rfl]⟩

theorem length_allocate (count : ℕ) (inits : ℤ) (a : α) : (Cells.allocate count inits a).length =
    count := by
  rw [Cells.allocate, List.length_map, List.length_range]

/-- There are as many cells as half-words begin in the section. -/
theorem halves_toNat {sp : Section} (h : sp.size ≠ BitVec.allOnes 32) :
    sp.halves.toNat = (sp.size.toNat + 1) / 2 := by
  have hlt : sp.size.toNat + 1 < 2 ^ 32 := by
    have hne : sp.size.toNat ≠ 2 ^ 32 - 1 :=
      fun heq => h (BitVec.eq_of_toNat_eq (by rw [heq, BitVec.toNat_allOnes]))
    omega
  rw [Section.halves, BitVec.toNat_udiv, BitVec.toNat_add]
  exact congrArg (· / 2) (Nat.mod_eq_of_lt hlt)

theorem halves_toNat_succ (sp : Section) : (sp.halves + 1).toNat = sp.halves.toNat + 1 := by
  have hle : sp.halves.toNat ≤ 2 ^ 31 := by
    rw [Section.halves, BitVec.toNat_udiv]
    have := (sp.size + 1).isLt
    exact Nat.div_le_of_le_mul (by change (sp.size + 1).toNat ≤ 2 * 2 ^ 31; omega)
  rw [BitVec.toNat_add]
  exact Nat.mod_eq_of_lt (by change sp.halves.toNat + 1 < 2 ^ 32; omega)

structure Unlisted (sp : Section) : Prop where
  code : sp.code = none
  fName : sp.fName = none
  line : sp.line = none
  diss : sp.diss = none

theorem place_lt {sp : Section} (hsize : sp.size ≠ BitVec.allOnes 32) {l : InstLine}
    (h : l.Inside sp) :
    l.place sp.startAddr < sp.halves.toNat := by
  have hdiff := h.2
  rw [halves_toNat hsize, InstLine.place]
  omega

theorem mem_of_lastAt {startAddr : ADDRESS} {lines : List ListingLine} {i : ℕ}
    {x : InstLine × Option SourceLine}
    (h : lastAt (entries startAddr id none lines) i = some x) :
    x ∈ instructions none lines ∧ i = x.1.place startAddr := by
  obtain ⟨y, hy, heq⟩ := List.mem_map.mp (exists_of_lastAt h)
  cases heq
  exact ⟨hy, rfl⟩

section

variable {sp : Section} (hnew : Unlisted sp) (lines : List ListingLine)

include hnew

theorem code_entered_iff : (∃ cells, (enterAll sp.allocate none lines).code = some cells ∧
      Entered (sp.allocate.code.getD []) (codeEntries sp.startAddr none lines) cells) ↔
    ∀ i a, lastAt (codeEntries sp.startAddr none lines) i = some a → i < sp.halves.toNat + 1 := by
  have hbefore : sp.allocate.code = some (.allocate (sp.halves + 1).toNat (sp.initHalves + 1)
      0) := by
    rw [Section.allocate, hnew.code]
    rfl
  have hiff := entered_iff (.allocate (sp.halves.toNat + 1) (sp.initHalves + 1) 0)
    (codeEntries sp.startAddr none lines) id id
  simp only [id_eq, Prod.mk.eta, List.map_id', length_allocate, and_true] at hiff
  rw [enterAll, hbefore, ← hiff, halves_toNat_succ]
  exact ⟨fun ⟨_, hcells, h⟩ => by cases hcells; exact h, fun h => ⟨_, rfl, h⟩⟩

theorem diss_entered_iff : (∃ cells, (enterAll sp.allocate none lines).diss = some cells ∧
      Entered (sp.allocate.diss.getD []) (entries sp.startAddr (fun x => some x.1.text) none lines)
          cells) ↔
    ∀ i x, lastAt (entries sp.startAddr id none lines) i = some x → i < sp.halves.toNat := by
  have hbefore : sp.allocate.diss = some (.allocate sp.halves.toNat sp.initHalves none) := by
    rw [Section.allocate, hnew.diss]
    rfl
  have hiff :=
    entered_iff (.allocate sp.halves.toNat sp.initHalves none) (entries sp.startAddr id none lines)
      (fun x => some x.1.text) (fun x => some x.1.text)
  rw [← entries_eq_map sp.startAddr fun x => some x.1.text] at hiff
  simp only [length_allocate, and_true] at hiff
  rw [enterAll, hbefore, ← hiff]
  exact ⟨fun ⟨_, hcells, h⟩ => by cases hcells; exact h, fun h => ⟨_, rfl, h⟩⟩

theorem fName_entered_iff : (∃ cells, (enterAll sp.allocate none lines).fName = some cells ∧
      Entered (sp.allocate.fName.getD []) (entries sp.startAddr (fun x => x.2.map SourceLine.file)
          none lines) cells) ↔
    ∀ i x, lastAt (entries sp.startAddr id none lines) i = some x →
      i < sp.halves.toNat ∧ x.2.map SourceLine.recorded = x.2.map SourceLine.file := by
  have hbefore : sp.allocate.fName = some (.allocate sp.halves.toNat sp.initHalves none) := by
    rw [Section.allocate, hnew.fName]
    rfl
  have hiff :=
    entered_iff (.allocate sp.halves.toNat sp.initHalves none) (entries sp.startAddr id none lines)
      (fun x => x.2.map SourceLine.file) (fun x => x.2.map SourceLine.recorded)
  rw [← entries_eq_map sp.startAddr fun x => x.2.map SourceLine.file,
    ← entries_eq_map sp.startAddr fun x => x.2.map SourceLine.recorded, length_allocate] at hiff
  rw [enterAll, hbefore, ← hiff]
  exact ⟨fun ⟨_, hcells, h⟩ => by cases hcells; exact h, fun h => ⟨_, rfl, h⟩⟩

def lineNumber (x : InstLine × Option SourceLine) : ℕ := (x.2.map fun l => l.line.value).getD 0

theorem line_entered_iff : (∃ cells, (enterAll sp.allocate none lines).line = some cells ∧
      Entered (Cells.toNat (sp.allocate.line.getD [])) (entries sp.startAddr lineNumber none lines)
          (Cells.toNat cells)) ↔
    ∀ i x, lastAt (entries sp.startAddr id none lines) i = some x →
      i < sp.halves.toNat ∧ (BitVec.ofNat 32 (lineNumber x)).toNat = lineNumber x := by
  have hbefore : sp.allocate.line = some (.allocate sp.halves.toNat sp.initHalves 0) := by
    rw [Section.allocate, hnew.line]
    rfl
  have hiff := entered_iff (Cells.toNat (.allocate sp.halves.toNat sp.initHalves 0))
    (entries sp.startAddr id none lines) lineNumber
      (fun x => (BitVec.ofNat 32 (lineNumber x)).toNat)
  have hstored : (Cells.toNat (.allocate sp.halves.toNat sp.initHalves 0)).storeAll
      ((entries sp.startAddr id none lines).map fun x =>
        (x.1, (BitVec.ofNat 32 (lineNumber x.2)).toNat)) =
      Cells.toNat ((Cells.allocate sp.halves.toNat sp.initHalves 0).storeAll
        (entries sp.startAddr (fun x => BitVec.ofNat 32 (lineNumber x)) none lines)) := by
    rw [toNat_storeAll, entries_eq_map sp.startAddr fun x => BitVec.ofNat 32 (lineNumber x),
      List.map_map]
    rfl
  have hlength : (Cells.toNat (.allocate sp.halves.toNat sp.initHalves 0)).length =
      sp.halves.toNat := by
    rw [Cells.toNat, List.length_map, length_allocate]
  rw [← entries_eq_map sp.startAddr lineNumber, hstored, hlength] at hiff
  rw [enterAll, hbefore, ← hiff]
  exact ⟨fun ⟨_, hcells, h⟩ => by cases hcells; exact h, fun h => ⟨_, rfl, h⟩⟩

/-- What is recorded of a listing is what it says if and only if all of it is kept. -/
theorem recorded_iff_kept (hinside : ∀ x ∈ instructions none lines, x.1.Inside sp) :
    Recorded sp lines (enterAll sp.allocate none lines) ↔ Kept sp lines := by
  constructor
  · intro h
    have hfile := (fName_entered_iff hnew lines).mp h.fName
    have hline := (line_entered_iff hnew lines).mp h.line
    refine ⟨fun hne hsize => ?_, fun i x hx l hl => ⟨?_, ?_⟩⟩
    · have hentries : entries sp.startAddr id none lines ≠ [] :=
        fun hnil => hne (List.map_eq_nil_iff.mp hnil)
      obtain ⟨i, x, hx⟩ := exists_lastAt hentries
      have hlt := (hfile i x hx).1
      rw [Section.halves, hsize] at hlt
      exact absurd hlt (Nat.not_lt_zero i)
    · have heq := (hfile i x hx).2
      rw [Option.mem_def.mp hl] at heq
      exact (recorded_eq_file_iff l).mp (Option.some.inj heq)
    · have heq := (hline i x hx).2
      rw [lineNumber, Option.mem_def.mp hl] at heq
      rw [← show _ = l.line.value from heq]
      exact BitVec.isLt _
  · intro h
    have hplace (i : ℕ) (x : InstLine × Option SourceLine)
        (hx : lastAt (entries sp.startAddr id none lines) i = some x) : i < sp.halves.toNat := by
      obtain ⟨hmem, rfl⟩ := mem_of_lastAt hx
      exact place_lt (h.room (List.ne_nil_of_mem hmem)) (hinside x hmem)
    refine ⟨(code_entered_iff hnew lines).mpr fun i a ha => ?_, (diss_entered_iff hnew lines).mpr
      hplace, (fName_entered_iff hnew lines).mpr fun i x hx => ⟨hplace i x hx, ?_⟩,
      (line_entered_iff hnew lines).mpr fun i x hx => ⟨hplace i x hx, ?_⟩⟩
    · obtain ⟨x, hmem, hhalf⟩ := List.mem_flatMap.mp (exists_of_lastAt ha)
      have hlt := place_lt (h.room (List.ne_nil_of_mem hmem)) (hinside x hmem)
      unfold InstLine.halfWords at hhalf
      split_ifs at hhalf
      · cases List.mem_singleton.mp hhalf
        omega
      · rcases List.mem_cons.mp hhalf with heq | hhalf
        · cases heq
          omega
        · cases List.mem_singleton.mp hhalf
          omega
    · cases hsource : x.2 with
      | none => rfl
      | some l =>
        exact congrArg some ((recorded_eq_file_iff l).mpr (h.source i x hx l hsource).drive)
    · rw [BitVec.toNat_ofNat]
      refine Nat.mod_eq_of_lt ?_
      rw [lineNumber]
      cases hsource : x.2 with
      | none => exact Nat.two_pow_pos 32
      | some l => exact (h.source i x hx l hsource).number

end

end ObjDump

end TraceDecoder
