import TraceDecoder.NLSTables

/-!
# What is kept of no-load strings

The scanner counts the conversions of a format and marks the signed ones. The marks of a string with
the number of an earlier one come on top of those that are there.
-/

namespace TraceDecoder

open CString

/-! ### The scanner -/

theorem signedAt_zero {c : Char} {cs : List Char} : SignedAt (c :: cs) 0 ↔ IsSigned c := by
  constructor
  · rintro ⟨_, ⟨⟩, hc⟩
    exact hc
  · exact fun hc => ⟨c, rfl, hc⟩

theorem signedAt_succ {c : Char} {cs : List Char} {k : ℕ} :
    SignedAt (c :: cs) (k + 1) ↔ SignedAt cs k := Iff.rfl

theorem not_signedAt_nil (k : ℕ) : ¬ SignedAt [] k := by
  rintro ⟨c, hc, -⟩
  cases hc

/-- What is to come of the conversions `cs` when `f` has been found. -/
def Finds (f : FormatScan) (cs : List Char) : Option FormatScan → Prop
  | some f' => (∀ k, SignedAt cs k → f.nf + k < 32) ∧ f'.nf = f.nf + cs.length ∧
    ∀ j, f'.signedMask.getLsbD j = true ↔ f.signedMask.getLsbD j = true ∨
      (f.nf ≤ j ∧ SignedAt cs (j - f.nf))
  | none => ∃ k, SignedAt cs k ∧ 32 ≤ f.nf + k

theorem finds_state {state state' : Bool} {nf : ℕ} {signedMask : BitVec 32} {cs : List Char}
    {r : Option FormatScan} :
    Finds ⟨state, nf, signedMask⟩ cs r ↔ Finds ⟨state', nf, signedMask⟩ cs r := by
  cases r <;> exact Iff.rfl

theorem finds_signed {c : Char} {cs : List Char} {state : Bool} {nf : ℕ} {signedMask : BitVec 32}
    {r : Option FormatScan}
    (hc : IsSigned c) (hnf : nf < 32) (h : Finds ⟨false, nf + 1, signedMask ||| 1#32 <<< nf⟩ cs r) :
    Finds ⟨state, nf, signedMask⟩ (c :: cs) r := by
  cases r with
  | none =>
    obtain ⟨k, hk, hle⟩ := h
    refine ⟨k + 1, hk, ?_⟩
    dsimp only at hle ⊢
    omega
  | some f' =>
    obtain ⟨hlt, hlength, hmask⟩ := h
    dsimp only [Finds] at hlt hlength hmask ⊢
    refine ⟨?_, ?_, ?_⟩
    · intro k hk
      cases k with
      | zero => exact hnf
      | succ k =>
        have hk' : nf + 1 + k < 32 := hlt k hk
        change nf + (k + 1) < 32
        omega
    · rw [hlength, List.length_cons]
      omega
    · intro j
      rw [hmask, BitVec.getLsbD_or, ← BitVec.twoPow_eq, BitVec.getLsbD_twoPow, Bool.or_eq_true,
        or_assoc]
      refine or_congr_right ?_
      rcases Nat.lt_trichotomy j nf with hj | rfl | hj
      · simp only [Bool.and_eq_true, decide_eq_true_eq]
        omega
      · simp only [hnf, decide_true, Bool.and_self, true_or, le_refl, Nat.sub_self, true_and,
          signedAt_zero, hc]
      · obtain ⟨k, rfl⟩ := Nat.exists_eq_add_of_lt hj
        have hne : ¬ nf = nf + k + 1 := by omega
        have hle : nf + 1 ≤ nf + k + 1 := by omega
        rw [show nf + k + 1 - nf = k + 1 by omega, signedAt_succ, show nf + k + 1 - (nf + 1) =
          k by omega]
        simp only [Bool.and_eq_true, decide_eq_true_eq, hne, hle, hj.le, and_false, false_or,
          true_and]

theorem finds_unsigned {c : Char} {cs : List Char} {state : Bool} {nf : ℕ} {signedMask : BitVec 32}
    {r : Option FormatScan}
    (hc : ¬ IsSigned c) (h : Finds ⟨false, nf + 1, signedMask⟩ cs r) :
    Finds ⟨state, nf, signedMask⟩ (c :: cs) r := by
  cases r with
  | none =>
    obtain ⟨k, hk, hle⟩ := h
    refine ⟨k + 1, hk, ?_⟩
    dsimp only at hle ⊢
    omega
  | some f' =>
    obtain ⟨hlt, hlength, hmask⟩ := h
    dsimp only [Finds] at hlt hlength hmask ⊢
    refine ⟨?_, ?_, ?_⟩
    · intro k hk
      cases k with
      | zero => exact absurd (signedAt_zero.mp hk) hc
      | succ k =>
        have hk' : nf + 1 + k < 32 := hlt k hk
        change nf + (k + 1) < 32
        omega
    · rw [hlength, List.length_cons]
      omega
    · intro j
      rw [hmask]
      refine or_congr_right ?_
      rcases Nat.lt_trichotomy j nf with hj | rfl | hj
      · omega
      · simp only [Nat.sub_self, signedAt_zero, hc, and_false, iff_false]
        omega
      · obtain ⟨k, rfl⟩ := Nat.exists_eq_add_of_lt hj
        have hle : nf + 1 ≤ nf + k + 1 := by omega
        rw [show nf + k + 1 - nf = k + 1 by omega, signedAt_succ, show nf + k + 1 - (nf + 1) =
          k by omega]
        simp only [hle, hj.le, true_and]

theorem finds_foldlM (f : FormatScan) (text : List Char) :
    Finds f (conversions f.state text) (text.foldlM FormatScan.step f) := by
  induction text generalizing f with
  | nil =>
    refine ⟨fun k hk => absurd hk (not_signedAt_nil k), rfl, fun j => ?_⟩
    simp only [conversions, not_signedAt_nil, and_false, or_false]
  | cons c text ih =>
    obtain ⟨state, nf, signedMask⟩ := f
    rw [List.foldlM_cons]
    change Finds _ _ ((FormatScan.step _ c).bind _)
    unfold FormatScan.step
    cases state with
    | false => exact finds_state.mp (ih ⟨decide (c = '%'), nf, signedMask⟩)
    | true =>
      rw [conversions, if_pos rfl]
      by_cases hpercent : c = '%'
      · rw [if_pos hpercent, if_pos hpercent]
        exact finds_state.mp (ih ⟨false, nf, signedMask⟩)
      · rw [if_neg hpercent, if_neg hpercent]
        by_cases hsigned : IsSigned c
        · rw [if_pos (.inl hsigned), if_pos hsigned]
          by_cases hnf : nf < 32
          · rw [if_pos hnf]
            exact finds_signed hsigned hnf (ih ⟨false, nf + 1, signedMask ||| 1#32 <<< nf⟩)
          · rw [if_neg hnf]
            exact ⟨0, signedAt_zero.mpr hsigned, Nat.le_of_not_lt hnf⟩
        · rw [if_neg hsigned]
          by_cases hunsigned : IsUnsigned c
          · rw [if_pos (.inr hunsigned), if_pos hunsigned]
            exact finds_unsigned hsigned (ih ⟨false, nf + 1, signedMask⟩)
          · rw [if_neg hunsigned, if_neg (not_or.mpr ⟨hsigned, hunsigned⟩)]
            exact ih ⟨true, nf, signedMask⟩

/-! ### The table -/

/-- Conversion `k` of a format is signed. -/
def SignedIn (text : List Char) (k : ℕ) : Prop := SignedAt (conversions false text) k

/-- The texts that are taken for number `k`. -/
def taken (k : ℕ) (strings : List (List Char)) : List (List Char) := strings.filterMap (takenAt k)

structure Describes (strings : List (List Char)) (nls : NlStrings) (k : ℕ) : Prop where
  format : (nls k).format = (taken k strings).getLast?.map String.ofList
  nf : (nls k).nf = (conversions false ((taken k strings).getLast?.getD [])).length
  signedMask : ∀ j, (nls k).signedMask.getLsbD j = true ↔ ∃ text ∈ taken k strings, SignedIn text j

def ShiftsFit (s : List Char) : Prop :=
  ∀ k < 32, ∀ text ∈ takenAt k s, ∀ j, SignedIn text j → j < 32

theorem taken_concat_some {k : ℕ} {s text : List Char} (h : takenAt k s = some text)
    (strings : List (List Char)) :
    taken k (strings ++ [s]) = taken k strings ++ [text] := by
  rw [taken, List.filterMap_append, List.filterMap_cons_some h]
  rfl

theorem taken_concat_none {k : ℕ} {s : List Char} (h : takenAt k s = none)
    (strings : List (List Char)) :
    taken k (strings ++ [s]) = taken k strings := by
  rw [taken, List.filterMap_append, List.filterMap_cons_none h]
  exact List.append_nil _

theorem Describes.skip {strings : List (List Char)} {nls : NlStrings} {k : ℕ}
    (h : Describes strings nls k) {s : List Char}
    (hs : takenAt k s = none) : Describes (strings ++ [s]) nls k := by
  have hsame := taken_concat_none hs strings
  exact ⟨hsame ▸ h.format, hsame ▸ h.nf, hsame ▸ h.signedMask⟩

/-- What a string does to the table, if its shifts are defined. -/
theorem stepString_describes {strings : List (List Char)} {nls : NlStrings}
    (h : ∀ k < 32, Describes strings nls k) (s : List Char) :
    match stepString nls s with
    | some nls' => ShiftsFit s ∧ ∀ k < 32, Describes (strings ++ [s]) nls' k
    | none => ¬ ShiftsFit s := by
  have hskip : (∀ k < 32, takenAt k s = none) → ShiftsFit s ∧
      ∀ k < 32, Describes (strings ++ [s]) nls k := by
    intro hnone
    refine ⟨fun k hk text htext => ?_, fun k hk => (h k hk).skip (hnone k hk)⟩
    rw [hnone k hk] at htext
    cases htext
  unfold stepString
  cases hnumber : numberOf s with
  | none =>
    apply hskip
    intro k hk
    rw [takenAt, hnumber]
    rfl
  | some p =>
    obtain ⟨n, text⟩ := p
    have htaken (k : ℕ) : takenAt k s = if toInt (clampInt64 n) = k then some text else none := by
      rw [takenAt, hnumber]
      rfl
    dsimp only
    by_cases hindex : 0 ≤ toInt (clampInt64 n) ∧ toInt (clampInt64 n) < 32
    · rw [if_pos hindex]
      obtain ⟨index, hcast⟩ := Int.eq_ofNat_of_zero_le hindex.1
      rw [hcast] at hindex htaken ⊢
      have hlt : index < 32 := by omega
      have hself : takenAt index s = some text := by rw [htaken, if_pos rfl]
      have hother {k : ℕ} (hk : k ≠ index) : takenAt k s = none := by
        rw [htaken, if_neg]
        exact fun heq => hk (Int.ofNat_inj.mp heq).symm
      have hfinds := finds_foldlM ⟨false, 0, (nls index).signedMask⟩ text
      rw [Int.toNat_natCast]
      cases hscan : text.foldlM FormatScan.step ⟨false, 0, (nls index).signedMask⟩ with
      | none =>
        rw [hscan] at hfinds
        obtain ⟨j, hj, hle⟩ := hfinds
        intro hfit
        have hbound := hfit index hlt text hself j hj
        dsimp only at hle
        omega
      | some f =>
        rw [hscan] at hfinds
        obtain ⟨hbound, hlength, hmask⟩ := hfinds
        dsimp only at hbound hlength hmask
        rw [Option.map_some]
        dsimp only
        refine ⟨?_, ?_⟩
        · intro k hk text' htext' j hj
          by_cases heq : k = index
          · subst heq
            rw [hself] at htext'
            cases htext'
            have hb := hbound j hj
            omega
          · rw [hother heq] at htext'
            cases htext'
        · intro k hk
          by_cases heq : k = index
          · subst heq
            have hlast : (taken k (strings ++ [s])).getLast? = some text := by
              rw [taken_concat_some hself, List.getLast?_concat]
            constructor
            · rw [hlast, Function.update_self]
              rfl
            · rw [hlast, Function.update_self]
              dsimp only
              rw [hlength, Nat.zero_add]
              rfl
            · intro j
              rw [Function.update_self]
              dsimp only
              rw [hmask, (h k hk).signedMask j, taken_concat_some hself]
              simp only [List.mem_append, List.mem_singleton, Nat.zero_le, true_and, Nat.sub_zero,
                or_and_right, exists_or, exists_eq_left]
              rfl
          · have hkept := (h k hk).skip (hother heq)
            have hsame : Function.update nls index ⟨f.nf, f.signedMask, some (String.ofList text)⟩
                k = nls k :=
              Function.update_of_ne heq _ _
            exact ⟨hsame ▸ hkept.format, hsame ▸ hkept.nf, hsame ▸ hkept.signedMask⟩
    · rw [if_neg hindex]
      apply hskip
      intro k hk
      rw [htaken, if_neg]
      omega

theorem foldlM_describes {done : List (List Char)} {nls : NlStrings}
    (h : ∀ k < 32, Describes done nls k) (strings : List (List Char)) :
    match strings.foldlM stepString nls with
    | some nls' => (∀ s ∈ strings, ShiftsFit s) ∧ ∀ k < 32, Describes (done ++ strings) nls' k
    | none => ¬ ∀ s ∈ strings, ShiftsFit s := by
  induction strings generalizing done nls with
  | nil =>
    rw [List.append_nil]
    exact ⟨List.forall_mem_nil _, h⟩
  | cons s strings ih =>
    have hstep := stepString_describes h s
    rw [List.foldlM_cons]
    change match (stepString nls s).bind fun nls => strings.foldlM stepString nls with
      | some nls' => (∀ t ∈ s :: strings, ShiftsFit t) ∧ ∀ k < 32, Describes (done ++ s :: strings)
          nls' k
      | none => ¬ ∀ t ∈ s :: strings, ShiftsFit t
    cases hrun : stepString nls s with
    | none =>
      rw [hrun] at hstep
      exact fun hall => hstep (List.forall_mem_cons.mp hall).1
    | some nls' =>
      rw [hrun] at hstep
      have hrest := ih hstep.2
      rw [Option.bind_some]
      cases hfold : strings.foldlM stepString nls' with
      | none =>
        rw [hfold] at hrest
        exact fun hall => hrest (List.forall_mem_cons.mp hall).2
      | some nls'' =>
        rw [hfold, List.append_assoc] at hrest
        exact ⟨List.forall_mem_cons.mpr ⟨hstep.1, hrest.1⟩, hrest.2⟩

theorem describes_init (k : ℕ) : Describes [] (fun _ => ⟨0, 0, none⟩) k := by
  refine ⟨rfl, rfl, fun j => ?_⟩
  simp only [taken, List.filterMap_nil, List.not_mem_nil, false_and, exists_false, iff_false]
  exact (Bool.not_eq_true _).mpr BitVec.getLsbD_zero

/-! ### The section -/

/-- The last string that is taken for number `k` has the text of the last one with that
number; and the signed conversions of all strings that are taken for it are signed in the
last, and among the first 32. -/
structure NumbersKept (strings : List (List Char)) (k : ℕ) : Prop where
  last : (taken k strings).getLast? = (strings.filterMap (textAt k)).getLast?
  signed : ∀ text ∈ taken k strings, ∀ j, SignedIn text j → j < 32 ∧
    SignedIn ((taken k strings).getLast?.getD []) j

/-- **The strings of a section are kept as they are** if and only if no other number
is taken for one of theirs, and no string brings signed conversions that the last with
its number does not have. -/
theorem parsesStrings_iff (strings : List (List Char)) (hstrings : ∀ s ∈ strings, '\x00' ∉ s) :
    ParsesStrings strings ↔ ∀ k < 32, NumbersKept strings k := by
  have hrun := foldlM_describes (fun k _ => describes_init k) strings
  rw [List.nil_append] at hrun
  unfold ParsesStrings
  rw [parseNLSStrings_sectionOf hstrings]
  have hfits : (∀ k < 32, ∀ text ∈ taken k strings, ∀ j, SignedIn text j → j < 32) ↔ ∀ s ∈ strings,
      ShiftsFit s := by
    simp only [taken, List.mem_filterMap, ShiftsFit, Option.mem_def]
    constructor
    · intro h s hs k hk text htext j hj
      exact h k hk text ⟨s, hs, htext⟩ j hj
    · rintro h k hk text ⟨s, hs, htext⟩ j hj
      exact h s hs k hk text htext j hj
  cases hfold : strings.foldlM stepString fun _ => ⟨0, 0, none⟩ with
  | none =>
    rw [hfold] at hrun
    constructor
    · rintro ⟨nls, hnls, -⟩
      cases hnls
    · intro h
      exact absurd (hfits.mp fun k hk text htext j hj => ((h k hk).signed text htext j hj).1) hrun
  | some nls =>
    rw [hfold] at hrun
    obtain ⟨hall, hdescribes⟩ := hrun
    constructor
    · rintro ⟨_, ⟨⟩, hkeeps⟩ k hk
      have hformat : (taken k strings).getLast? = (strings.filterMap (textAt k)).getLast? := by
        have heq := (hdescribes k hk).format.symm.trans (hkeeps k hk).format
        exact Option.map_injective (fun _ _ => String.ofList_injective) heq
      refine ⟨hformat, fun text htext j hj => ⟨hfits.mpr hall k hk text htext j hj, ?_⟩⟩
      rw [hformat]
      exact ((hkeeps k hk).signedMask j).mp (((hdescribes k hk).signedMask j).mpr ⟨text, htext, hj⟩)
    · intro h
      refine ⟨nls, rfl, fun k hk => ?_⟩
      have hlast := (h k hk).last
      constructor
      · rw [← hlast]
        exact (hdescribes k hk).format
      · rw [← hlast]
        exact (hdescribes k hk).nf
      · intro j
        rw [(hdescribes k hk).signedMask j, ← hlast]
        constructor
        · rintro ⟨text, htext, hj⟩
          exact ((h k hk).signed text htext j hj).2
        · intro hj
          cases hnone : (taken k strings).getLast? with
          | none =>
            rw [hnone] at hj
            exact absurd hj (not_signedAt_nil j)
          | some text =>
            rw [hnone] at hj
            exact ⟨text, List.mem_of_getLast? hnone, hj⟩

theorem parsesStrings_signed : ParsesStrings [['3', ':', '%', 'd']] := by
  apply (parsesStrings_iff [['3', ':', '%', 'd']] (by decide)).mpr
  intro k hk
  have htaken : takenAt k ['3', ':', '%', 'd'] = if (3 : ℤ) = k then some ['%', 'd'] else none :=
    rfl
  have htext : textAt k ['3', ':', '%', 'd'] = if (3 : ℤ) = k then some ['%', 'd'] else none := rfl
  by_cases h3 : (3 : ℤ) = k
  · rw [if_pos h3] at htaken htext
    constructor
    · rw [taken, List.filterMap_cons_some htaken, List.filterMap_cons_some htext]
      rfl
    · intro text hmem j hj
      rw [taken, List.filterMap_cons_some htaken] at hmem ⊢
      rw [List.mem_singleton.mp hmem] at hj
      refine ⟨?_, hj⟩
      obtain ⟨c, hc, -⟩ := hj
      have hlt := (List.getElem?_eq_some_iff.mp hc).1
      exact hlt.trans (by decide)
  · rw [if_neg h3] at htaken htext
    constructor
    · rw [taken, List.filterMap_cons_none htaken, List.filterMap_cons_none htext]
      rfl
    · intro text hmem
      rw [taken, List.filterMap_cons_none htaken] at hmem
      cases hmem

/-- An unsigned conversion with the number of a signed one. -/
theorem not_parsesStrings : ¬ ParsesStrings [['0', ':', '%', 'd'], ['0', ':', '%', 'x']] := by
  rintro ⟨nls, hnls, hkeeps⟩
  have hbit : (parseNLSStrings (sectionOf [['0', ':', '%', 'd'], ['0', ':', '%', 'x']])).map
      (fun nls => (nls 0).signedMask.getLsbD 0) = some true := by decide
  rw [hnls] at hbit
  obtain ⟨c, hc, hsigned⟩ := ((hkeeps 0 (by decide)).signedMask 0).mp (Option.some.inj hbit)
  have hx : c = 'x' := by
    have hlast :
        (conversions false (([['0', ':', '%', 'd'], ['0', ':', '%', 'x']].filterMap
        (textAt 0)).getLast?.getD []))[0]? = some 'x' := by
      decide
    exact Option.some.inj (hc.symm.trans hlast)
  rw [hx] at hsigned
  exact absurd hsigned (by decide)

end TraceDecoder
