import TraceDecoder.SymbolOrder

/-!
# The symbol table

`Symtab` takes the sorted symbols, gives those without a size the distance to the next address, and
is searched from the front. The size of the symbol that is cached is never set, so an earlier search
never answers a later one.
-/

namespace TraceDecoder

structure SymPtr extends Sym where
  sp : Option ℕ
  deriving DecidableEq, Repr

structure Symtab where
  symPtrArray : List SymPtr
  cachedSymAddr : ADDRESS
  cachedSymSize : BitVec 32
  cachedSymIndex : Option ℕ

namespace SymPtr

def debug (s : SymPtr) : Bool := s.toSym.has symDebug

def sizeFrom (endAddr : ℕ → ADDRESS) (s : SymPtr) (sp : ℕ) : List SymPtr → BitVec 64
  | [] => s.size
  | e :: rest =>
    if some sp ≠ e.sp then endAddr sp + 1 - s.address
    else if e.address ≠ s.address then
      if s.debug then sizeFrom endAddr s sp rest else e.address - s.address
    else sizeFrom endAddr s sp rest

def Unsized (s : SymPtr) : Prop := s.size = 0 ∧ ¬s.debug ∧ s.sp ≠ none

instance (s : SymPtr) : Decidable s.Unsized := inferInstanceAs (Decidable (_ ∧ _ ∧ _))

def Covers (addr : ADDRESS) (s : SymPtr) : Prop :=
  s.address ≤ addr - s.vmaOffset ∧ addr - s.vmaOffset < s.address + s.size

instance (addr : ADDRESS) (s : SymPtr) : Decidable (s.Covers addr) :=
  inferInstanceAs (Decidable (_ ∧ _))

end SymPtr

def SymPtr.fixup (endAddr : ℕ → ADDRESS) (s : SymPtr) (rest : List SymPtr) : SymPtr :=
  if s.size = 0 ∧ ¬s.debug then
    match s.sp with
    | some sp => { s with size := s.sizeFrom endAddr sp rest }
    | none => s
  else s

def fixupFunctionSizes (endAddr : ℕ → ADDRESS) : List SymPtr → List SymPtr
  | [] => []
  | s :: rest => s.fixup endAddr rest :: fixupFunctionSizes endAddr rest

namespace Symtab

def construct (endAddr : ℕ → ADDRESS) (sorted : List SymPtr) : Symtab :=
  ⟨fixupFunctionSizes endAddr sorted, 0, 0, none⟩

variable (t : Symtab) (addr : ADDRESS)

def lookupSymbolByAddress : DQErr × Option SymPtr × Symtab :=
  if addr = 0 then (.err, none, t)
  else if t.cachedSymAddr ≤ addr ∧ addr < t.cachedSymAddr + t.cachedSymSize.signExtend 64 then
    (.ok, t.cachedSymIndex.bind (t.symPtrArray[·]?), t)
  else
    match t.symPtrArray.findIdx? (·.Covers addr) with
    | some found =>
      (.ok, t.symPtrArray[found]?, { t with
        cachedSymIndex := some found
        cachedSymAddr :=
          (t.symPtrArray[found]?).elim t.cachedSymAddr fun s => s.address + s.vmaOffset })
    | none => (.ok, none, t)

/-- `Disassembler::getFunctionName`: the name and the offset in it. -/
def getFunctionName : DQErr × Option (List Char × BitVec 32) × Symtab :=
  match t.lookupSymbolByAddress addr with
  | (.ok, some s, t) => (.ok, some (s.name, (addr - s.vmaOffset - s.address).setWidth 32), t)
  | (.ok, none, t) => (.ok, none, t)
  | (_, _, t) => (.err, none, t)

def after (addrs : List ADDRESS) : Symtab :=
  addrs.foldl (fun t addr => (t.lookupSymbolByAddress addr).2.2) t

/-! ### Searches -/

variable {t}

theorem lookupSymbolByAddress_table : (t.lookupSymbolByAddress addr).2.2.symPtrArray =
    t.symPtrArray ∧
    (t.lookupSymbolByAddress addr).2.2.cachedSymSize = t.cachedSymSize := by
  unfold lookupSymbolByAddress
  split_ifs
  · exact ⟨rfl, rfl⟩
  · exact ⟨rfl, rfl⟩
  · cases t.symPtrArray.findIdx? (·.Covers addr) with
    | none => exact ⟨rfl, rfl⟩
    | some found => exact ⟨rfl, rfl⟩

theorem after_table (addrs : List ADDRESS) :
    (t.after addrs).symPtrArray = t.symPtrArray ∧ (t.after addrs).cachedSymSize =
      t.cachedSymSize := by
  induction addrs generalizing t with
  | nil => exact ⟨rfl, rfl⟩
  | cons addr addrs ih =>
    obtain ⟨harray, hsize⟩ := ih (t := (t.lookupSymbolByAddress addr).2.2)
    obtain ⟨harray', hsize'⟩ := lookupSymbolByAddress_table (t := t) addr
    exact ⟨harray.trans harray', hsize.trans hsize'⟩

theorem lookupSymbolByAddress_eq (hsize : t.cachedSymSize = 0) {addr : ADDRESS} (haddr : addr ≠ 0) :
    (t.lookupSymbolByAddress addr).1 = .ok ∧ (t.lookupSymbolByAddress addr).2.1 =
      t.symPtrArray.find? (·.Covers addr) := by
  have hmiss : ¬(t.cachedSymAddr ≤ addr ∧ addr < t.cachedSymAddr + t.cachedSymSize.signExtend
      64) := by
    have hzero : t.cachedSymAddr + t.cachedSymSize.signExtend 64 = t.cachedSymAddr := by
      rw [hsize]
      exact BitVec.add_zero _
    rw [hzero]
    exact fun ⟨hle, hlt⟩ => absurd hle (BitVec.not_le.mpr hlt)
  unfold lookupSymbolByAddress
  rw [if_neg haddr, if_neg hmiss, List.find?_eq_bind_findIdx?_getElem?]
  cases t.symPtrArray.findIdx? (·.Covers addr) with
  | none => exact ⟨rfl, rfl⟩
  | some found => exact ⟨rfl, rfl⟩

end Symtab

/-! ### Sizes -/

namespace SymPtr

variable {endAddr : ℕ → ADDRESS} {s : SymPtr} {sp : ℕ} {rest : List SymPtr}

def Ends (s e : SymPtr) : Prop := e.sp ≠ s.sp ∨ e.address ≠ s.address

instance (s e : SymPtr) : Decidable (s.Ends e) := inferInstanceAs (Decidable (_ ∨ _))

theorem sizeFrom_eq (hsp : s.sp = some sp) (hdebug : ¬s.debug) (rest : List SymPtr) :
    s.sizeFrom endAddr sp rest =
    (rest.find? (s.Ends ·)).elim s.size fun e =>
    (if e.sp ≠ s.sp then endAddr sp + 1 else e.address) - s.address := by
  induction rest with
  | nil => rfl
  | cons e rest ih =>
    have hother : some sp ≠ e.sp ↔ e.sp ≠ s.sp := by rw [hsp, ne_comm]
    rw [sizeFrom, List.find?_cons]
    by_cases hsec : e.sp = s.sp
    · by_cases haddr : e.address = s.address
      · have hends : ¬s.Ends e := by simp [Ends, hsec, haddr]
        rw [if_neg (by simpa [hother] using hsec), if_neg (not_not.mpr haddr), ih]
        simp [hends]
      · have hends : s.Ends e := .inr haddr
        rw [if_neg (by simpa [hother] using hsec), if_pos haddr, if_neg hdebug]
        simp [hends, hsec]
    · have hends : s.Ends e := .inl hsec
      rw [if_pos (hother.mpr hsec)]
      simp [hends, hsec]

theorem fixup_of_unsized (h : s.Unsized) (hsp : s.sp = some sp) :
    s.fixup endAddr rest = { s with size := s.sizeFrom endAddr sp rest } := by
  rw [fixup, if_pos ⟨h.1, h.2.1⟩]
  cases s
  cases hsp
  rfl

theorem fixup_of_not_unsized (h : ¬s.Unsized) : s.fixup endAddr rest = s := by
  unfold fixup
  split_ifs with hsize
  · cases hsp : s.sp with
    | none => rfl
    | some sp => exact absurd ⟨hsize.1, hsize.2, by simp [hsp]⟩ h
  · rfl

/-- Where the extent of a symbol is to end: at the next address of its
section, or at the end of that. -/
inductive Reaches (endAddr : ℕ → ADDRESS) (table : List SymPtr) (s : SymPtr) : ADDRESS → Prop
  | next {e : SymPtr} (hmem : e ∈ table) (hsp : e.sp = s.sp) (hlt : s.address < e.address)
      (hleast : ∀ e' ∈ table, e'.sp = s.sp → s.address < e'.address → e.address ≤ e'.address) :
        Reaches endAddr table s e.address
  | last {sp : ℕ} (hsp : s.sp = some sp) (hgreatest : ∀ e ∈ table, e.sp = s.sp → e.address ≤
      s.address) : Reaches endAddr table s (endAddr sp + 1)

end SymPtr

open SymPtr

def ByAddress (table : List SymPtr) : Prop := table.Pairwise fun s e => s.address ≤ e.address

def BySection (table : List SymPtr) : Prop :=
  ∀ a b c, [a, b, c].Sublist table → a.sp = c.sp → b.sp = a.sp

theorem sizeFrom_reaches {endAddr : ℕ → ADDRESS} {front rest : List SymPtr} {s : SymPtr} {sp : ℕ}
    (hsp : s.sp = some sp)
    (hsorted : ByAddress (front ++ s :: rest)) (hgrouped : BySection (front ++ s :: rest))
    (hdebug : ¬s.debug)
    (hends : ∃ e ∈ rest, s.Ends e) :
    Reaches endAddr (front ++ s :: rest) s (s.address + s.sizeFrom endAddr sp rest) := by
  have hback : ∀ e ∈ front, e.address ≤ s.address := by
    intro e he
    exact (List.pairwise_append.mp hsorted).2.2 e he s List.mem_cons_self
  obtain ⟨hforward, hrest⟩ := List.pairwise_cons.mp (List.pairwise_append.mp hsorted).2.1
  have hsome : (rest.find? (s.Ends ·)).isSome = true := List.find?_isSome.mpr (by simpa using hends)
  obtain ⟨e, he⟩ := Option.isSome_iff_exists.mp hsome
  obtain ⟨hends, mid, tail, hmid, hsame⟩ := List.find?_eq_some_iff_append.mp he
  have hsame' : ∀ e' ∈ mid, e'.sp = s.sp ∧ e'.address = s.address := by
    intro e' he'
    have hnot : ¬s.Ends e' := by simpa using hsame e' he'
    simpa [Ends] using hnot
  rw [sizeFrom_eq hsp hdebug, he, Option.elim_some]
  have hadd : ∀ a : ADDRESS, s.address + (a - s.address) = a := fun a => by
    rw [BitVec.add_comm, BitVec.sub_add_cancel]
  rw [hadd]
  by_cases hsec : e.sp = s.sp
  · rw [if_neg (not_not.mpr hsec)]
    have hemem : e ∈ rest := by simp [hmid]
    have hne : e.address ≠ s.address := by
      have hends' : s.Ends e := by simpa using hends
      exact hends'.resolve_left (not_not.mpr hsec)
    have hlt : s.address < e.address := by
      have hle := hforward e hemem
      bv_omega
    refine .next (by simp [hmid]) hsec hlt fun e' he' hsec' hlt' => ?_
    rcases List.mem_append.mp he' with he' | he'
    · exact absurd (hback e' he') (BitVec.not_le.mpr hlt')
    · rcases List.mem_cons.mp he' with rfl | he'
      · exact absurd hlt' (BitVec.lt_irrefl _)
      · rw [hmid] at he' hrest
        rcases List.mem_append.mp he' with he' | he'
        · rw [(hsame' e' he').2] at hlt'
          exact absurd hlt' (BitVec.lt_irrefl _)
        · rcases List.mem_cons.mp he' with rfl | he'
          · exact BitVec.le_refl _
          · exact (List.pairwise_cons.mp (List.pairwise_append.mp hrest).2.1).1 e' he'
  · rw [if_pos hsec]
    refine .last hsp fun e' he' hsec' => ?_
    rcases List.mem_append.mp he' with he' | he'
    · exact hback e' he'
    · rcases List.mem_cons.mp he' with rfl | he'
      · exact BitVec.le_refl _
      · rw [hmid] at he'
        rcases List.mem_append.mp he' with he' | he'
        · rw [(hsame' e' he').2]
          exact BitVec.le_refl _
        · rcases List.mem_cons.mp he' with rfl | he'
          · exact absurd hsec' hsec
          · -- an entry of the section behind that of another one
            have hsub : [s, e, e'].Sublist (front ++ s :: rest) := by
              apply List.Sublist.trans _ (List.sublist_append_right front _)
              apply List.Sublist.cons_cons
              rw [hmid]
              apply List.Sublist.trans _ (List.sublist_append_right mid _)
              exact List.Sublist.cons_cons e (List.singleton_sublist.mpr he')
            exact absurd (hgrouped s e e' hsub hsec'.symm) hsec

inductive Sized (endAddr : ℕ → ADDRESS) (table : List SymPtr) (s : SymPtr) (rest : List SymPtr) :
    SymPtr → Prop
  | kept (h : ¬s.Unsized) : Sized endAddr table s rest s
  | reaching (size : BitVec 64) (h : s.Unsized) (hends : ∃ e ∈ rest, s.Ends e)
      (hreaches : Reaches endAddr table s (s.address + size)) :
        Sized endAddr table s rest { s with size := size }
  | endless (h : s.Unsized) (hsame : ∀ e ∈ rest, e.sp = s.sp ∧ e.address = s.address) :
    Sized endAddr table s rest s

theorem fixupFunctionSizes_getElem? (endAddr : ℕ → ADDRESS) (front : List SymPtr) (s : SymPtr)
    (rest : List SymPtr) :
    (fixupFunctionSizes endAddr (front ++ s :: rest))[front.length]? =
    (fixupFunctionSizes endAddr (s :: rest)).head? := by
  induction front with
  | nil => rfl
  | cons e front ih =>
    rw [List.cons_append, fixupFunctionSizes, List.length_cons, List.getElem?_cons_succ]
    exact ih

theorem fixupFunctionSizes_sized {endAddr : ℕ → ADDRESS} {front rest : List SymPtr} {s : SymPtr}
    (hsorted : ByAddress (front ++ s :: rest)) (hgrouped : BySection (front ++ s :: rest)) :
    ∃ s', (fixupFunctionSizes endAddr (front ++ s :: rest))[front.length]? = some s' ∧
      Sized endAddr (front ++ s :: rest) s rest s' := by
  rw [fixupFunctionSizes_getElem?, fixupFunctionSizes, List.head?_cons]
  refine ⟨_, rfl, ?_⟩
  by_cases hunsized : s.Unsized
  · obtain ⟨sp, hsp⟩ := Option.ne_none_iff_exists'.mp hunsized.2.2
    rw [fixup_of_unsized hunsized hsp]
    by_cases hends : ∃ e ∈ rest, s.Ends e
    · exact .reaching _ hunsized hends (sizeFrom_reaches hsp hsorted hgrouped hunsized.2.1 hends)
    · have hnone : rest.find? (s.Ends ·) = none := List.find?_eq_none.mpr (by simpa using hends)
      have hsame : ∀ e ∈ rest, e.sp = s.sp ∧ e.address = s.address := by simpa [Ends] using hends
      rw [sizeFrom_eq hsp hunsized.2.1, hnone, Option.elim_none]
      exact .endless hunsized hsame
  · rw [fixup_of_not_unsized hunsized]
    exact .kept hunsized

namespace Symtab

/-- **The symbol table**, from symbols that are sorted by address and whose sections do not mix. A
symbol without a size reaches to the next address of its section or to the end of that; one at the
last address of the whole table stays without a size. Whatever was looked up before, an address has
the name of the first symbol of the table that it is in. -/
theorem getFunctionName_spec (endAddr : ℕ → ADDRESS) {sorted : List SymPtr}
    (hsorted : ByAddress sorted) (hgrouped : BySection sorted) :
    (∀ front s rest, sorted = front ++ s :: rest →
      ∃ s', (construct endAddr sorted).symPtrArray[front.length]? = some s' ∧ Sized endAddr sorted
          s rest s') ∧
    ∀ earlier addr, addr ≠ 0 →
      (((construct endAddr sorted).after earlier).getFunctionName addr).1 = .ok ∧
        (((construct endAddr sorted).after earlier).getFunctionName addr).2.1 =
          ((construct endAddr sorted).symPtrArray.find? (·.Covers addr)).map
            fun s => (s.name, (addr - s.vmaOffset - s.address).setWidth 32) := by
  constructor
  · rintro front s rest rfl
    exact fixupFunctionSizes_sized hsorted hgrouped
  · intro earlier addr haddr
    obtain ⟨harray, hsize⟩ := after_table (t := construct endAddr sorted) earlier
    obtain ⟨hok, hfind⟩ := lookupSymbolByAddress_eq hsize haddr
    rw [harray] at hfind
    unfold getFunctionName
    rcases hlookup : ((construct endAddr sorted).after earlier).lookupSymbolByAddress
      addr with ⟨rc, found, t⟩
    rw [hlookup] at hok hfind
    obtain rfl : rc = .ok := hok
    rw [← hfind]
    cases found with
    | none => exact ⟨rfl, rfl⟩
    | some s => exact ⟨rfl, rfl⟩

/-- Two functions and an object behind them, in sections that end at 0x1f and at 0x2f. -/
def threeSymbols : List SymPtr :=
  [⟨⟨['m', 'a', 'i', 'n'], symGlobal ||| symFunc, none, 0, 0x10, 0, none⟩, some 0⟩,
    ⟨⟨['f'], symGlobal ||| symFunc, none, 0, 0x18, 0, none⟩, some 0⟩,
    ⟨⟨['x'], symGlobal, none, 0, 0x20, 0, none⟩, some 1⟩]

def twoEnds (sp : ℕ) : ADDRESS := if sp = 0 then 0x1f else 0x2f

theorem bySection_threeSymbols : BySection threeSymbols := by
  intro a b c hsub hsp
  have habc : [a, b, c] = threeSymbols := hsub.eq_of_length rfl
  cases habc
  cases hsp

/-- The last symbol is never found. -/
theorem getFunctionName_threeSymbols :
    (((construct twoEnds threeSymbols).after [0x20, 0x12]).getFunctionName 0x1e).2.1 = some
    (['f'], 6) ∧
      (((construct twoEnds threeSymbols).after [0x20, 0x12]).getFunctionName 0x20).2.1 = none := by
  have hsorted : ByAddress threeSymbols := by
    unfold ByAddress threeSymbols
    decide
  have hspec := (getFunctionName_spec twoEnds hsorted bySection_threeSymbols).2 [0x20, 0x12]
  rw [(hspec 0x1e (by decide)).2, (hspec 0x20 (by decide)).2]
  exact ⟨rfl, rfl⟩

end Symtab

end TraceDecoder
