import TraceDecoder.Lib.Vacancies
import TraceDecoder.Symtab

/-!
# Source files of symbols

`ElfReader::fixupSourceFiles` gives the half-words of a symbol, where the listing has no file for
them, the name of the symbol's file. The loop trusts the address and the size of the symbol, so it
stays inside the arrays of the section only for symbols that do, and for a symbol of any size it
writes at least one cell.
-/

namespace TraceDecoder

open Vacancies

variable (fileName : ℕ → List Char)

namespace Section

/-- One cell of the loop; `none` where it is not in the arrays or has not been written before. -/
def fixupCell (name : List Char) (sp : Section) (j : ℕ) : Option Section :=
  match sp.fName, sp.line with
  | some fName, some line =>
    match fName[j]? with
    | some (some none) =>
      if j < line.length then some { sp with fName := some (fName.set j (some (some name))), line := some (line.set j (some 0)) } else none
    | some (some (some _)) => some sp
    | _ => none
  | _, _ => none

/-- So many rounds of the loop, from round `i` on. -/
def fixupCells (name : List Char) (index : BitVec 32) : ℕ → BitVec 32 → Section → Option Section
  | 0, _, sp => some sp
  | n + 1, i, sp => (sp.fixupCell name (index + i).toNat).bind (fixupCells name index n (i + 1))

def fileAt (sp : Section) (j : ℕ) : Option (List Char) := ((sp.fName.bind (·[j]?)).join).join

structure Filled (n : ℕ) (sp : Section) : Prop where
  fName : ∃ cells, sp.fName = some cells ∧ cells.length = n ∧ ∀ c ∈ cells, c ≠ none
  line : ∃ cells, sp.line = some cells ∧ cells.length = n

structure Same (sp sp' : Section) : Prop where
  flags : sp'.flags = sp.flags
  startAddr : sp'.startAddr = sp.startAddr

variable {name : List Char} {sp : Section} {n j : ℕ}

theorem fixupCell_of_lt (name : List Char) (h : sp.Filled n) (hj : j < n) :
    ∃ sp', sp.fixupCell name j = some sp' ∧ sp'.Filled n ∧ sp.Same sp' ∧
    sp'.fileAt = claim sp.fileAt ⟨j, 1, name⟩ := by
  obtain ⟨⟨fName, hfName, hlength, hwritten⟩, line, hline, hlines⟩ := h
  obtain ⟨file, hfile⟩ :=
    Option.ne_none_iff_exists'.mp (hwritten fName[j] (List.getElem_mem (by omega)))
  have hcell : fName[j]? = some (some file) := by rw [List.getElem?_eq_getElem (by omega), hfile]
  have hat : sp.fileAt j = file := by
    rw [fileAt, hfName, Option.bind_some, hcell]
    rfl
  unfold fixupCell
  rw [hfName, hline]
  dsimp only
  rw [hcell]
  cases file with
  | some file =>
    refine ⟨sp, rfl, ⟨⟨fName, hfName, hlength, hwritten⟩, line, hline, hlines⟩, ⟨rfl, rfl⟩, ?_⟩
    funext i
    unfold claim
    by_cases hi : i = j
    · rw [hi, hat, Option.some_or]
    · have hnot : ¬(⟨j, 1, name⟩ : Claim (List Char)).Has i := by
        unfold Claim.Has
        dsimp only
        omega
      rw [if_neg hnot, Option.or_none]
  | none =>
    dsimp only
    rw [if_pos (by omega)]
    refine ⟨_, rfl, ⟨⟨_, rfl, ?_, ?_⟩, _, rfl, ?_⟩, ⟨rfl, rfl⟩, ?_⟩
    · rw [List.length_set, hlength]
    · intro c hc
      rcases List.mem_or_eq_of_mem_set hc with hc | rfl
      · exact hwritten c hc
      · exact Option.some_ne_none _
    · rw [List.length_set, hlines]
    · funext i
      unfold claim
      by_cases hi : i = j
      · have hhas : (⟨j, 1, name⟩ : Claim (List Char)).Has j := by simp [Claim.Has]
        rw [hi, hat, if_pos hhas, Option.none_or, fileAt, Option.bind_some, List.getElem?_set_self
          (by omega)]
        rfl
      · have hnot : ¬(⟨j, 1, name⟩ : Claim (List Char)).Has i := by
          unfold Claim.Has
          dsimp only
          omega
        rw [if_neg hnot, Option.or_none, fileAt, fileAt, hfName, Option.bind_some, Option.bind_some,
          List.getElem?_set_ne (Ne.symm hi)]

theorem fixupCell_of_le (h : sp.Filled n) (hj : n ≤ j) : sp.fixupCell name j = none := by
  obtain ⟨⟨fName, hfName, hlength, -⟩, line, hline, -⟩ := h
  unfold fixupCell
  rw [hfName, hline]
  dsimp only
  rw [List.getElem?_eq_none (by omega)]

/-- The loop stays inside if and only if the cells are there. -/
theorem fixupCells_spec (name : List Char) (h : sp.Filled n) (hn : n < 2 ^ 32) (index i : BitVec 32)
    (count : ℕ) :
    ((index + i).toNat + count ≤ n → ∃ sp', fixupCells name index count i sp = some sp' ∧
      sp'.Filled n ∧ sp.Same sp' ∧
      sp'.fileAt = claim sp.fileAt ⟨(index + i).toNat, count, name⟩) ∧
    (0 < count → ¬(index + i).toNat + count ≤ n → fixupCells name index count i sp = none) := by
  induction count generalizing sp i with
  | zero =>
    exact ⟨fun _ => ⟨sp, rfl, h, ⟨rfl, rfl⟩, (claim_zero _ _ _).symm⟩, fun hpos => absurd hpos
      (Nat.lt_irrefl 0)⟩
  | succ count ih =>
    by_cases hj : (index + i).toNat < n
    · obtain ⟨sp', hcell, hfilled, hsame, hat⟩ := fixupCell_of_lt name h hj
      have hnext : (index + (i + 1)).toNat = (index + i).toNat + 1 := by
        rw [← BitVec.add_assoc, BitVec.toNat_add]
        change ((index + i).toNat + 1) % 2 ^ 32 = _
        omega
      obtain ⟨hin, hout⟩ := ih hfilled (i + 1)
      rw [hnext] at hin hout
      rw [fixupCells, hcell, Option.bind_some]
      constructor
      · intro hle
        obtain ⟨sp'', hcells, hfilled', hsame', hat'⟩ := hin (by omega)
        refine ⟨sp'', hcells, hfilled', ⟨hsame'.flags.trans hsame.flags, hsame'.startAddr.trans
          hsame.startAddr⟩, ?_⟩
        rw [hat', hat]
        exact (claim_succ _ _ _ _).symm
      · intro _ hgt
        exact hout (by omega) (by omega)
    · have hnone : sp.fixupCell name (index + i).toNat = none := fixupCell_of_le h (by omega)
      rw [fixupCells, hnone]
      exact ⟨fun hle => absurd hle (by omega), fun _ _ => rfl⟩

end Section

namespace SymPtr

def rounds (sym : SymPtr) : ℕ := max 1 ((sym.size.setWidth 32).toNat / 2)

def index (sym : SymPtr) (sp : Section) : BitVec 32 :=
  ((sym.address - sp.startAddr) / 2).setWidth 32

end SymPtr

open Section

def fixupSourceFile (sections : ℕ → Section) (sym : SymPtr) : Option (ℕ → Section) :=
  match sym.srcFile, sym.sp with
  | some file, some s =>
    if (sections s).flags &&& sect_CODE ≠ 0 then
      (fixupCells (fileName file) (sym.index (sections s)) sym.rounds 0 (sections s)).map
        (Function.update sections s)
    else some sections
  | _, _ => some sections

/-- The sections behind the loop; `none` where it leaves their arrays. -/
def fixupSourceFiles (sections : ℕ → Section) (syms : List SymPtr) : Option (ℕ → Section) :=
  syms.foldlM (fixupSourceFile fileName) sections

def Cellular (lengths : ℕ → Option ℕ) (sections : ℕ → Section) : Prop :=
  ∀ s, (∀ n, lengths s = some n → n < 2 ^ 32 ∧ (sections s).Filled n) ∧
    (lengths s = none → (sections s).fName = none)

/-- What a symbol claims of section `s`. -/
def claimOf (sections : ℕ → Section) (s : ℕ) (sym : SymPtr) : Option (Claim (List Char)) :=
  if sym.sp = some s ∧ (sections s).flags &&& sect_CODE ≠ 0 then
    sym.srcFile.map fun file => ⟨(sym.index (sections s)).toNat, sym.rounds, fileName file⟩
  else none

def Placed (lengths : ℕ → Option ℕ) (sections : ℕ → Section) (sym : SymPtr) : Prop :=
  ∀ s c, claimOf fileName sections s sym = some c → ∃ n, lengths s = some n ∧ c.first + c.count ≤ n

variable {fileName} {lengths : ℕ → Option ℕ} {sections sections' : ℕ → Section} {sym : SymPtr}

theorem claimOf_congr (h : ∀ s, (sections s).Same (sections' s)) (s : ℕ) (sym : SymPtr) :
    claimOf fileName sections' s sym = claimOf fileName sections s sym := by
  rw [claimOf, claimOf, SymPtr.index, SymPtr.index, (h s).flags, (h s).startAddr]

theorem placed_congr (h : ∀ s, (sections s).Same (sections' s)) :
    Placed fileName lengths sections' sym ↔ Placed fileName lengths sections sym := by
  unfold Placed
  simp only [claimOf_congr h]

/-- A symbol claims nothing and changes nothing, or it claims cells of its section and the loop runs
over them. -/
theorem claimOf_cases (fileName : ℕ → List Char) (sections : ℕ → Section) (sym : SymPtr) :
    ((∀ s, claimOf fileName sections s sym = none) ∧ fixupSourceFile fileName sections sym =
      some sections) ∨
      ∃ s file, claimOf fileName sections s sym = some ⟨(sym.index (sections s)).toNat, sym.rounds,
          file⟩ ∧
        (∀ s', s' ≠ s → claimOf fileName sections s' sym = none) ∧
        fixupSourceFile fileName sections sym =
          (fixupCells file (sym.index (sections s)) sym.rounds 0 (sections s)).map
          (Function.update sections s) := by
  unfold claimOf fixupSourceFile
  cases hfile : sym.srcFile with
  | none => exact .inl ⟨fun s => by simp, rfl⟩
  | some file =>
    cases hsp : sym.sp with
    | none => exact .inl ⟨fun s => by simp, rfl⟩
    | some s =>
      dsimp only
      by_cases hcode : (sections s).flags &&& sect_CODE ≠ 0
      · refine .inr ⟨s, fileName file, ?_, fun s' hs' => ?_, if_pos hcode⟩
        · rw [if_pos ⟨rfl, hcode⟩]
          rfl
        · exact if_neg fun hclaims => hs' (Option.some.inj hclaims.1).symm
      · refine .inl ⟨fun s' => if_neg fun hclaims => ?_, if_neg hcode⟩
        obtain rfl := Option.some.inj hclaims.1
        exact hcode hclaims.2

theorem SymPtr.rounds_pos (sym : SymPtr) : 0 < sym.rounds :=
  Nat.lt_of_lt_of_le Nat.one_pos (Nat.le_max_left 1 _)

structure Fixed (fileName : ℕ → List Char) (lengths : ℕ → Option ℕ)
    (sections sections' : ℕ → Section) (sym : SymPtr) : Prop where
  cellular : Cellular lengths sections'
  same : ∀ s, (sections s).Same (sections' s)
  fileAt : ∀ s, (sections' s).fileAt = (claimOf fileName sections s sym).toList.foldl claim
    (sections s).fileAt

theorem fixed_update (h : Cellular lengths sections) {s n : ℕ} {c : Claim (List Char)}
    {sp' : Section} (hn : lengths s = some n)
    (hclaim : claimOf fileName sections s sym = some c)
    (hother : ∀ s', s' ≠ s → claimOf fileName sections s' sym = none)
    (hfilled : sp'.Filled n) (hsame : (sections s).Same sp')
    (hat : sp'.fileAt = claim (sections s).fileAt c) :
    Fixed fileName lengths sections (Function.update sections s sp') sym := by
  constructor
  · intro s'
    by_cases hs' : s' = s
    · rw [hs', Function.update_self]
      refine ⟨fun m hm => ⟨((h s).1 m hm).1, ?_⟩, fun hm => by simp [hn] at hm⟩
      obtain rfl : n = m := Option.some.inj (hn.symm.trans hm)
      exact hfilled
    · rw [Function.update_of_ne hs']
      exact h s'
  · intro s'
    by_cases hs' : s' = s
    · rw [hs', Function.update_self]
      exact hsame
    · rw [Function.update_of_ne hs']
      exact ⟨rfl, rfl⟩
  · intro s'
    by_cases hs' : s' = s
    · rw [hs', Function.update_self, hclaim, hat]
      rfl
    · rw [Function.update_of_ne hs', hother s' hs']
      rfl

/-- **One symbol**: it is taken in if its cells are there, and otherwise the
loop leaves the arrays. -/
theorem fixupSourceFile_spec (fileName : ℕ → List Char) (h : Cellular lengths sections)
    (sym : SymPtr) : (Placed fileName lengths sections sym →
      ∃ sections', fixupSourceFile fileName sections sym = some sections' ∧ Fixed fileName lengths
          sections sections' sym) ∧
    (¬Placed fileName lengths sections sym → fixupSourceFile fileName sections sym = none) := by
  obtain ⟨hnone, hidle⟩ | ⟨s, file, hclaim, hother, hfix⟩ := claimOf_cases fileName sections sym
  · refine ⟨fun _ => ⟨sections, hidle, h, fun _ => ⟨rfl, rfl⟩, fun s => ?_⟩, fun hnot => ?_⟩
    · rw [hnone s]
      rfl
    · refine absurd (fun s c hc => ?_) hnot
      rw [hnone s] at hc
      cases hc
  · have hplaced : Placed fileName lengths sections sym ↔
        ∃ n, lengths s = some n ∧ (sym.index (sections s)).toNat + sym.rounds ≤ n := by
      constructor
      · exact fun hp => hp s _ hclaim
      · rintro ⟨n, hn, hle⟩ s' c hc
        by_cases hs' : s' = s
        · subst hs'
          rw [hclaim] at hc
          cases hc
          exact ⟨n, hn, hle⟩
        · rw [hother s' hs'] at hc
          cases hc
    rw [hfix, hplaced]
    cases hn : lengths s with
    | none =>
      have hfault : fixupCells file (sym.index (sections s)) sym.rounds 0 (sections s) = none := by
        obtain ⟨k, hk⟩ := Nat.exists_eq_succ_of_ne_zero (Nat.pos_iff_ne_zero.mp sym.rounds_pos)
        rw [hk, fixupCells, fixupCell, (h s).2 hn]
        rfl
      refine ⟨?_, fun _ => by rw [hfault]; rfl⟩
      rintro ⟨n, hn', -⟩
      cases hn'
    | some n =>
      obtain ⟨hlt, hfilled⟩ := (h s).1 n hn
      obtain ⟨hin, hout⟩ := fixupCells_spec file hfilled hlt (sym.index (sections s)) 0 sym.rounds
      have hzero : (sym.index (sections s) + (0 : BitVec 32)).toNat =
          (sym.index (sections s)).toNat :=
        congrArg BitVec.toNat (BitVec.add_zero _)
      rw [hzero] at hin hout
      constructor
      · rintro ⟨n', hn', hle⟩
        obtain rfl := Option.some.inj hn'
        obtain ⟨sp', hcells, hfilled', hsame, hat⟩ := hin hle
        exact ⟨_, by rw [hcells]; rfl, fixed_update h hn hclaim hother hfilled' hsame hat⟩
      · intro hnot
        rw [hout sym.rounds_pos fun hle => hnot ⟨n, rfl, hle⟩]
        rfl

/-- **All symbols**: the loop stays inside the arrays if and only if every symbol does.
Behind it a half-word has the file of the listing or, without one, that of the first symbol
of the list that it is in. -/
theorem fixupSourceFiles_iff (h : Cellular lengths sections) (syms : List SymPtr) :
    (∃ sections', fixupSourceFiles fileName sections syms = some sections' ∧ ∀ s j,
    (sections' s).fileAt j =
      ((sections s).fileAt j).or
        (((syms.filterMap (claimOf fileName sections s)).find? (·.Has j)).map Claim.owner)) ↔
    ∀ sym ∈ syms, Placed fileName lengths sections sym := by
  simp only [← foldl_claim]
  unfold fixupSourceFiles
  induction syms generalizing sections with
  | nil => exact iff_of_true ⟨sections, rfl, fun _ _ => rfl⟩ (List.forall_mem_nil _)
  | cons sym syms ih =>
    obtain ⟨hin, hout⟩ := fixupSourceFile_spec fileName h sym
    rw [List.forall_mem_cons, List.foldlM_cons]
    by_cases hplaced : Placed fileName lengths sections sym
    · obtain ⟨sections', hfix, hfixed⟩ := hin hplaced
      have hrest := ih hfixed.cellular
      simp only [claimOf_congr hfixed.same, placed_congr hfixed.same, hfixed.fileAt] at hrest
      rw [hfix, and_iff_right hplaced, ← hrest]
      refine exists_congr fun sections'' => and_congr_right fun _ => forall_congr'
        fun s => forall_congr' fun j => ?_
      cases hclaim : claimOf fileName sections s sym with
      | none => simp [hclaim]
      | some c => simp [hclaim]
    · rw [hout hplaced]
      refine iff_of_false ?_ fun hall => hplaced hall.1
      rintro ⟨sections', hsome, -⟩
      cases hsome

/-- Three half-words of code, the second of which has a file from the listing. -/
def threeHalves : Section where
  name := ['t']
  startAddr := 0x10
  endAddr := 0x15
  vmaOffset := 0
  flags := sect_CODE
  size := 6
  offset := 0
  align := 2
  fName := some [some none, some (some ['l']), some none]
  line := some [some 0, some 7, some 0]

def firstSymbol : SymPtr := ⟨⟨['s'], symFunc, none, 0, 0x10, 4, some 0⟩, some 0⟩

def wholeSymbol : SymPtr := ⟨⟨['w'], symFunc, none, 0, 0x10, 6, some 1⟩, some 0⟩

theorem cellular_threeHalves : Cellular (fun _ => some 3) fun _ => threeHalves := by
  intro s
  refine ⟨fun n hn => ?_, by simp⟩
  obtain rfl := Option.some.inj hn
  exact ⟨by decide, ⟨_, rfl, rfl, by decide⟩, _, rfl, rfl⟩

theorem fixupSourceFiles_threeHalves :
    let fileName (i : ℕ) : List Char := if i = 0 then ['f'] else ['g']
    ∃ sections', fixupSourceFiles fileName (fun _ => threeHalves) [firstSymbol, wholeSymbol] =
      some sections' ∧ (sections' 0).fileAt 0 = some ['f'] ∧ (sections' 0).fileAt 1 = some ['l'] ∧
        (sections' 0).fileAt 2 = some ['g'] := by
  intro fileName
  have hplaced : ∀ sym ∈ [firstSymbol, wholeSymbol], Placed fileName (fun _ => some 3)
      (fun _ => threeHalves) sym := by
    intro sym hsym s c hc
    simp only [List.mem_cons, List.not_mem_nil, or_false] at hsym
    rcases hsym with rfl | rfl
    all_goals
      unfold claimOf at hc
      split_ifs at hc
      obtain rfl := Option.some.inj hc
    · have hle : (firstSymbol.index threeHalves).toNat + firstSymbol.rounds ≤ 3 := by decide
      exact ⟨3, rfl, hle⟩
    · have hle : (wholeSymbol.index threeHalves).toNat + wholeSymbol.rounds ≤ 3 := by decide
      exact ⟨3, rfl, hle⟩
  obtain ⟨sections', hfix, hat⟩ :=
    (fixupSourceFiles_iff cellular_threeHalves [firstSymbol, wholeSymbol]).mpr hplaced
  exact ⟨sections', hfix, (hat 0 0).trans rfl, (hat 0 1).trans rfl, (hat 0 2).trans rfl⟩

end TraceDecoder
