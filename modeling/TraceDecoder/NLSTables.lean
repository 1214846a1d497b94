import TraceDecoder.NLSStrings

/-!
# The table of no-load strings

A section of null-terminated strings is parsed string by string. What is kept for a number is the
text of the last string that is taken for one with it, with the signed conversions of all of them.
-/

namespace TraceDecoder

open CString

/-! ### Numbers at the end of a string -/

section

variable (s more : List Char)

theorem unsigned_behind : unsigned (s ++ '\x00' :: more) = unsigned s ++ '\x00' :: more := by
  unfold unsigned
  rw [dropWhile_behind s more (p := fun c => decide (IsSpace c)) (by decide)]
  dsimp only
  rw [peek_behind, skipSign_behind]

theorem autoBase_le : autoBase s ≤ 36 := by
  unfold autoBase
  dsimp only
  split_ifs <;> decide

theorem autoBase_behind : autoBase (s ++ '\x00' :: more) = autoBase s := by
  unfold autoBase
  dsimp only
  rw [unsigned_behind, peek_behind]
  by_cases hzero : peek (unsigned s) = '0'
  · have htail := tail_behind more (s := unsigned s) (by rw [hzero]; decide)
    rw [if_pos hzero, if_pos hzero, htail, peek_behind]
    by_cases hx : digitVal (peek (unsigned s).tail) = 33
    · rw [tail_behind more (s := (unsigned s).tail) (fun h => by rw [h] at hx; exact absurd hx (by decide)), peek_behind]
    · rw [if_neg fun h => hx h.1, if_neg fun h => hx h.1]
  · rw [if_neg hzero, if_neg hzero]

theorem strtol_behind :
    strtol (s ++ '\x00' :: more) = ((strtol s).1, (strtol s).2 ++ '\x00' :: more) := by
  unfold strtol
  rw [autoBase_behind, strtoll_behind s more (autoBase_le s)]

end

variable {s : List Char}

theorem eq_colon_cons {t : List Char} (h : peek t = ':') : t = ':' :: t.tail := by
  cases t with
  | nil => exact absurd h (by decide)
  | cons c t =>
    have hc : c = ':' := h
    rw [hc, List.tail_cons]

theorem digitsOf_ne_nil_iff (s : List Char) :
    digitsOf s ≠ [] ↔ IsDigit (autoBase s) (peek (skipPrefix (autoBase s) (unsigned s))) := by
  unfold digitsOf
  cases skipPrefix (autoBase s) (unsigned s) with
  | nil =>
    have hnull := of_decide_eq_false (digit_behind (autoBase_le s))
    exact ⟨fun h => absurd rfl h, fun h => absurd h hnull⟩
  | cons c t =>
    change _ ↔ IsDigit (autoBase s) c
    rw [List.takeWhile_cons]
    by_cases hc : IsDigit (autoBase s) c
    · rw [decide_eq_true hc]
      exact ⟨fun _ => hc, fun _ => List.cons_ne_nil _ _⟩
    · rw [decide_eq_false hc]
      exact ⟨fun h => absurd rfl h, fun h => absurd h hc⟩

/-- `strtol` by the digits that it converts. -/
theorem strtol_eq (s : List Char) : strtol s =
    if digitsOf s ≠ [] then (clampInt64 (signOf s * ofDigits (autoBase s) (digitsOf s)),
        behindDigits s) else (0, s) := by
  rw [if_congr (digitsOf_ne_nil_iff s) rfl rfl]
  rfl

theorem skipPrefix_suffix (base : ℕ) (t : List Char) : skipPrefix base t <:+ t := by
  unfold skipPrefix
  split_ifs
  · exact (List.tail_suffix _).trans (List.tail_suffix t)
  · exact List.suffix_refl t

theorem unsigned_suffix (s : List Char) : unsigned s <:+ s := by
  unfold unsigned
  dsimp only
  split_ifs
  · exact (List.tail_suffix _).trans (List.dropWhile_suffix _)
  · exact List.dropWhile_suffix _

/-- Something has been converted if and only if less is left. -/
theorem length_strtol (s : List Char) : (strtol s).2.length ≠ s.length ↔ digitsOf s ≠ [] := by
  rw [strtol_eq]
  by_cases hdigits : digitsOf s ≠ []
  · rw [if_pos hdigits]
    refine ⟨fun _ => hdigits, fun _ => ?_⟩
    have hparts :=
      congrArg List.length (List.takeWhile_append_dropWhile
        (p := fun c => decide (IsDigit (autoBase s) c))
      (l := skipPrefix (autoBase s) (unsigned s)))
    have hle := ((skipPrefix_suffix (autoBase s) (unsigned s)).trans (unsigned_suffix s)).length_le
    have hpos := List.length_pos_iff.mpr hdigits
    rw [List.length_append] at hparts
    change (digitsOf s).length + (behindDigits s).length = _ at hparts
    dsimp only
    omega
  · rw [if_neg hdigits]
    exact ⟨fun h => absurd rfl h, fun h => absurd h hdigits⟩

theorem strtol_suffix (s : List Char) : (strtol s).2 <:+ s := by
  rw [strtol_eq]
  by_cases hdigits : digitsOf s ≠ []
  · rw [if_pos hdigits]
    exact (List.dropWhile_suffix _).trans ((skipPrefix_suffix _ _).trans (unsigned_suffix s))
  · simp only [if_neg hdigits, List.suffix_refl]

theorem numberOf_some {n : ℤ} {text : List Char} (h : numberOf s = some (n, text)) :
    strtol s = (clampInt64 n, ':' :: text) ∧ (strtol s).2.length ≠ s.length := by
  unfold numberOf at h
  split_ifs at h with hnumber
  obtain ⟨hdigits, hcolon⟩ := hnumber
  cases h
  refine ⟨?_, (length_strtol s).mpr hdigits⟩
  rw [strtol_eq, if_pos hdigits, ← eq_colon_cons hcolon]

theorem numberOf_none (h : numberOf s = none) : (strtol s).2.length = s.length ∨ peek
    (strtol s).2 ≠ ':' := by
  by_contra hnot
  obtain ⟨hlength, hcolon⟩ := not_or.mp hnot
  have hdigits := (length_strtol s).mp hlength
  rw [strtol_eq, if_pos hdigits] at hcolon
  rw [numberOf, if_pos ⟨hdigits, not_not.mp hcolon⟩] at h
  cases h

/-! ### One string -/

theorem skipString_append {t : List Char} (ht : '\x00' ∉ t) (more : List Char) :
    skipString (t ++ '\x00' :: more) = more := by
  unfold skipString
  rw [dropWhile_append_stop]
  · rfl
  · intro c hc
    exact decide_eq_true fun h => ht (h ▸ hc)
  · rintro c ⟨⟩
    rfl

/-- The loop over a format ends at the null character behind it. -/
theorem scanFormat_append {text : List Char} (htext : '\x00' ∉ text) (more : List Char)
    (f : FormatScan) :
    scanFormat f (text ++ '\x00' :: more) = (text.foldlM FormatScan.step f).map fun f =>
      (f, text, more) := by
  induction text generalizing f with
  | nil => rfl
  | cons c text ih =>
    have hc : c ≠ '\x00' := fun h => htext (h ▸ List.mem_cons_self)
    rw [List.cons_append, scanFormat, if_neg hc, List.foldlM_cons]
    change _ = ((f.step c).bind _).map _
    cases f.step c with
    | none => rfl
    | some f' =>
      rw [Option.bind_some, Option.bind_some, ih fun h => htext (List.mem_cons_of_mem _ h),
        Option.map_map]
      rfl

def stepString (nls : NlStrings) (s : List Char) : Option NlStrings :=
  match numberOf s with
  | none => some nls
  | some (n, text) =>
    if 0 ≤ toInt (clampInt64 n) ∧ toInt (clampInt64 n) < 32 then
      let index := (toInt (clampInt64 n)).toNat
      (text.foldlM FormatScan.step ⟨false, 0, (nls index).signedMask⟩).map fun f =>
        Function.update nls index ⟨f.nf, f.signedMask, some (String.ofList text)⟩
    else some nls

theorem parseStrings_string (hs : '\x00' ∉ s) (more : List Char) (fuel : ℕ) (nls : NlStrings) :
    parseStrings (fuel + 1) nls (s ++ '\x00' :: more) = (stepString nls s).bind fun nls =>
      parseStrings fuel nls more := by
  have hmem : ¬ '\x00' ∉ s ++ '\x00' :: more :=
    fun h => h (List.mem_append_right _ List.mem_cons_self)
  have hrest : '\x00' ∉ (strtol s).2 := fun h => hs ((strtol_suffix s).mem h)
  rw [parseStrings, if_neg (by simp), if_neg hmem, strtol_behind]
  dsimp only
  rw [List.length_append, List.length_append, peek_behind, skipString_append hrest,
    skipString_append hs]
  simp only [ne_eq, Nat.add_right_cancel_iff]
  unfold stepString
  cases hnumber : numberOf s with
  | none =>
    rw [Option.bind_some]
    rcases numberOf_none hnumber with hlength | hcolon
    · rw [if_neg (not_not.mpr hlength)]
    · have hpos : 32 ≤ toInt (strtol s).1 ∨ toInt (strtol s).1 < 0 ∨ ¬ peek (strtol s).2 = ':' :=
        .inr (.inr hcolon)
      rw [if_pos hpos, ite_self]
  | some p =>
    obtain ⟨n, text⟩ := p
    obtain ⟨hstrtol, hlength⟩ := numberOf_some hnumber
    have htext : '\x00' ∉ text := by
      rw [hstrtol] at hrest
      exact fun h => hrest (List.mem_cons_of_mem _ h)
    rw [if_pos hlength, hstrtol]
    dsimp only
    by_cases hindex : 0 ≤ toInt (clampInt64 n) ∧ toInt (clampInt64 n) < 32
    · have hnot : ¬ (32 ≤ toInt (clampInt64 n) ∨ toInt (clampInt64 n) < 0 ∨ ¬ peek (':' :: text) =
          ':') := by
        rintro (h | h | h)
        · omega
        · omega
        · exact h rfl
      rw [if_neg hnot, if_pos hindex, List.cons_append, List.tail_cons, scanFormat_append htext]
      cases text.foldlM FormatScan.step
        ⟨false, 0, (nls (toInt (clampInt64 n)).toNat).signedMask⟩ with
      | none => rfl
      | some f => rfl
    · have hpos : 32 ≤ toInt (clampInt64 n) ∨ toInt (clampInt64 n) < 0 ∨ ¬ peek (':' :: text) =
        ':' := by omega
      rw [if_pos hpos, if_neg hindex, Option.bind_some]

theorem parseStrings_sectionOf {strings : List (List Char)} (hstrings : ∀ s ∈ strings, '\x00' ∉ s)
    (nls : NlStrings) {fuel : ℕ}
    (hfuel : strings.length < fuel) :
    parseStrings fuel nls (sectionOf strings) = strings.foldlM stepString nls := by
  induction strings generalizing nls fuel with
  | nil =>
    obtain ⟨fuel, rfl⟩ := Nat.exists_eq_add_one_of_ne_zero (Nat.ne_of_gt hfuel)
    rfl
  | cons s strings ih =>
    obtain ⟨hs, hrest⟩ := List.forall_mem_cons.mp hstrings
    obtain ⟨fuel, rfl⟩ := Nat.exists_eq_add_one_of_ne_zero (Nat.ne_of_gt (Nat.zero_lt_of_lt hfuel))
    have hsection : sectionOf (s :: strings) = s ++ '\x00' :: sectionOf strings := by
      rw [sectionOf, List.flatMap_cons, List.append_assoc]
      rfl
    rw [hsection, parseStrings_string hs, List.foldlM_cons]
    change (stepString nls s).bind _ = (stepString nls s).bind _
    cases stepString nls s with
    | none => rfl
    | some nls' =>
      rw [List.length_cons] at hfuel
      exact ih hrest nls' (by omega)

theorem length_le_sectionOf (strings : List (List Char)) :
    strings.length ≤ (sectionOf strings).length := by
  induction strings with
  | nil => exact Nat.le_refl 0
  | cons s strings ih =>
    rw [sectionOf, List.flatMap_cons, List.length_append, List.length_append, List.length_cons,
      List.length_singleton]
    rw [sectionOf] at ih
    omega

theorem parseNLSStrings_sectionOf {strings : List (List Char)}
    (hstrings : ∀ s ∈ strings, '\x00' ∉ s) :
    parseNLSStrings (sectionOf strings) = strings.foldlM stepString fun _ => ⟨0, 0, none⟩ :=
  parseStrings_sectionOf hstrings _ (Nat.lt_succ_of_le (length_le_sectionOf strings))

end TraceDecoder
