import TraceDecoder.ITCPrintCalls

/-!
# The arrays of a no-load-string print

`print` looks at the entry of the channel in a table of 32 and formats the text, of any length, into
`dst`.
-/

namespace TraceDecoder

namespace ITCPrint

section

variable (p : ITCPrint) (sprintf : String → List PrintfArg → List Byte) (core : ℕ)
    (addr data : BitVec 32)

/-- The index at which `print` looks into the table of no-load strings. -/
def nlsIndex : Option ℕ :=
  if core < p.numCores ∧ p.itcOptFlags &&& ITC_OPT_NLS ≠ 0 ∧ addr &&& 0x03 = 0 ∧
      p.nlsStrings.isSome then
    some (addr.toNat / 4)
  else none

/-- The indices of `dst` that `sprintf` writes to, up to the one of the null character. -/
def dstIndices : List ℕ :=
  match p.printPath sprintf core addr data with
  | .nls text => List.range (text.length + 1)
  | _ => []

def StaysInside (c : ITCPrint × Op) : Prop :=
  match c.2 with
  | .print core addr data _ =>
    (∀ i ∈ c.1.nlsIndex core addr, i < 32) ∧ ∀ i ∈ c.1.dstIndices sprintf core addr data, i < 256
  | _ => True

/-- The channel of a print is one of the table, and its no-load string prints fewer than 256
characters. -/
def FitsArrays (c : ITCPrint × Op) : Prop :=
  match c.2 with
  | .print core addr data _ =>
    core < c.1.numCores → c.1.itcOptFlags &&& ITC_OPT_NLS ≠ 0 → addr &&& 0x03 = 0 →
      ∀ nls ∈ c.1.nlsStrings, addr < 128 ∧ ∀ format ∈ (nls (addr.toNat / 4)).format,
        (formatted sprintf (nls (addr.toNat / 4)) format (addr.toNat / 4) data).length < 256
  | _ => True

instance : DecidablePred (FitsArrays sprintf)
  | (_, .print ..) => inferInstanceAs (Decidable (_ → _))
  | (_, .getMsg ..) | (_, .getStr ..) | (_, .flushMsg ..) | (_, .flushStr ..) =>
    inferInstanceAs (Decidable True)

end

variable {p : ITCPrint} {sprintf : String → List PrintfArg → List Byte} {core : ℕ}
    {addr data : BitVec 32}

theorem nlsString_eq_some {nls : NlString} {format : String} :
    p.nlsString addr = some (nls, format) ↔
    p.itcOptFlags &&& ITC_OPT_NLS ≠ 0 ∧ addr &&& 0x03 = 0 ∧
      ∃ table ∈ p.nlsStrings, nls = table (addr.toNat / 4) ∧ nls.format = some format := by
  unfold nlsString
  constructor
  · intro h
    split_ifs at h with hlookup
    obtain ⟨table, htable, hformat⟩ := Option.bind_eq_some_iff.mp h
    obtain ⟨format', hformat', heq⟩ := Option.map_eq_some_iff.mp hformat
    cases heq
    exact ⟨hlookup.1, hlookup.2, table, htable, rfl, hformat'⟩
  · rintro ⟨hflag, haligned, table, htable, rfl, hformat⟩
    have hsome : p.nlsStrings = some table := htable
    rw [if_pos ⟨hflag, haligned⟩, hsome, Option.bind_some, hformat]
    rfl

theorem printPath_eq_nls {text : List Byte} : p.printPath sprintf core addr data = .nls text ↔
    core < p.numCores ∧ ∃ nls format, p.nlsString addr = some (nls, format) ∧
      text = formatted sprintf nls format (addr.toNat / 4) data := by
  unfold printPath
  by_cases hcore : p.numCores ≤ core
  · rw [if_pos hcore]
    exact iff_of_false nofun fun h => Nat.not_lt.mpr hcore h.1
  · rw [if_neg hcore]
    cases hstring : p.nlsString addr with
    | none =>
      dsimp only
      refine iff_of_false ?_ ?_
      · split_ifs <;> exact nofun
      · rintro ⟨-, nls, format, h, -⟩
        cases h
    | some r =>
      obtain ⟨nls, format⟩ := r
      constructor
      · intro h
        cases h
        exact ⟨Nat.lt_of_not_le hcore, nls, format, rfl, rfl⟩
      · rintro ⟨-, nls', format', h, rfl⟩
        cases h
        rfl

theorem dst_lt_iff : (∀ i ∈ p.dstIndices sprintf core addr data, i < 256) ↔
    ∀ text, p.printPath sprintf core addr data = .nls text → text.length < 256 := by
  unfold dstIndices
  cases p.printPath sprintf core addr data with
  | ignored => exact iff_of_true (List.forall_mem_nil _) nofun
  | data bytes => exact iff_of_true (List.forall_mem_nil _) nofun
  | nls text =>
    constructor
    · rintro h _ ⟨⟩
      exact h text.length (List.mem_range.mpr (Nat.lt_succ_self _))
    · intro h i hi
      have hi' : i < text.length + 1 := List.mem_range.mp hi
      have hlength := h text rfl
      omega

theorem staysInside_iff {c : ITCPrint × Op} : StaysInside sprintf c ↔ FitsArrays sprintf c := by
  obtain ⟨p, op⟩ := c
  cases op with
  | print core addr data tstamp =>
    have haddr : addr < 128 ↔ addr.toNat / 4 < 32 := by
      rw [BitVec.lt_def]
      change addr.toNat < 128 ↔ _
      omega
    constructor
    · rintro ⟨hindex, hdst⟩ hcore hflag haligned nls hnls
      have hsome : p.nlsStrings.isSome := Option.isSome_iff_exists.mpr ⟨nls, hnls⟩
      refine ⟨haddr.mpr (hindex _ (if_pos ⟨hcore, hflag, haligned, hsome⟩)), fun format hformat =>
        ?_⟩
      have hstring := nlsString_eq_some.mpr ⟨hflag, haligned, nls, hnls, rfl, hformat⟩
      exact dst_lt_iff.mp hdst _ (printPath_eq_nls.mpr ⟨hcore, _, _, hstring, rfl⟩)
    · intro h
      refine ⟨fun i hi => ?_, dst_lt_iff.mpr fun text htext => ?_⟩
      · dsimp only at hi
        unfold nlsIndex at hi
        split_ifs at hi with hlookup
        · obtain ⟨hcore, hflag, haligned, hsome⟩ := hlookup
          obtain ⟨nls, hnls⟩ := Option.isSome_iff_exists.mp hsome
          cases hi
          exact haddr.mp (h hcore hflag haligned nls hnls).1
        · cases hi
      · obtain ⟨hcore, nls, format, hstring, rfl⟩ := printPath_eq_nls.mp htext
        obtain ⟨hflag, haligned, table, htable, rfl, hformat⟩ := nlsString_eq_some.mp hstring
        exact (h hcore hflag haligned table htable).2 format hformat
  | getMsg | getStr | flushMsg | flushStr => exact Iff.rfl

end ITCPrint

end TraceDecoder
