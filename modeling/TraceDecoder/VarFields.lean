import Mathlib.Tactic.Common
import TraceDecoder.FieldReaders

/-!
# Variable fields that do not fit

A variable field ends at the first slice with an end mark, and may be longer than a word.
`parseVarField` decides by the top two bits of the last slice whether it fits, which are its bits 64
and 65 only if the field starts with a slice.
-/

namespace TraceDecoder

open BitStream

namespace SliceFileParser

variable (s : SliceFileParser)

/-- The field that starts at the bit index ends at slice `last`. -/
structure EndsAt (last : ℕ) : Prop where
  first : s.bitIndex / 6 ≤ last
  room : last < s.msgSlices
  normal : ∀ k, s.bitIndex / 6 ≤ k → k < last → mseo s.msg k = MSEO_NORMAL
  mark : mseo s.msg last ≠ MSEO_NORMAL

def fieldWidth (last : ℕ) : ℕ := 6 * (last + 1) - s.bitIndex

def fieldNumber (last : ℕ) : ℕ :=
  Nat.ofBits fun j : Fin (s.fieldWidth last) => dataBit s.msg (s.bitIndex + j)

/-- The field is read if it ends and its number fits in the word, and the result is its number and
its width. -/
def ReadExactly : Prop :=
  match parseVarField s with
  | .ok (val, width) _ => ∃ last, s.EndsAt last ∧ s.fieldNumber last < 2 ^ 64 ∧
      val.toNat = s.fieldNumber last ∧ width = s.fieldWidth last
  | .error _ _ => ∀ last, s.EndsAt last → 2 ^ 64 ≤ s.fieldNumber last

/-- The field has at most 64 bits, or the top two bits of its last slice tell whether it fits. -/
def TopBitsTell (last : ℕ) : Prop :=
  s.fieldWidth last ≤ 64 ∨ (s.fieldWidth last = 65 ∧ slice s.msg last &&& 0xc0 ≠ 0x40) ∨
    (66 ≤ s.fieldWidth last ∧ (slice s.msg last &&& 0xc0 ≠ 0 ∨
      ∀ k, s.bitIndex + 64 ≤ k → k < 6 * last + 4 → dataBit s.msg k = false))

variable {s}

theorem EndsAt.unique {last last' : ℕ} (h : s.EndsAt last) (h' : s.EndsAt last') :
    last = last' := by
  rcases Nat.lt_trichotomy last last' with hlt | heq | hlt
  · exact absurd (h'.normal last h.first hlt) h.mark
  · exact heq
  · exact absurd (h.normal last' h'.first hlt) h'.mark

theorem testBit_fieldNumber (last j : ℕ) :
    (s.fieldNumber last).testBit j =
    (decide (j < s.fieldWidth last) && dataBit s.msg (s.bitIndex + j)) := by
  rw [fieldNumber, Nat.testBit_ofBits]
  by_cases hj : j < s.fieldWidth last
  · simp [hj]
  · simp [hj]

/-- The number fits if no bit is set that the word has no room for. -/
theorem fieldNumber_lt_iff (last : ℕ) : s.fieldNumber last < 2 ^ 64 ↔
    ∀ k, s.bitIndex + 64 ≤ k → k < 6 * (last + 1) → dataBit s.msg k = false := by
  constructor
  · intro hlt k hk hkl
    have hbit := testBit_fieldNumber (s := s) last (k - s.bitIndex)
    rw [Nat.testBit_lt_two_pow (Nat.lt_of_lt_of_le hlt (Nat.pow_le_pow_right (by decide)
      (by omega))), decide_eq_true (by rw [fieldWidth]; omega), Bool.true_and, Nat.add_sub_cancel'
        (by omega)] at hbit
    exact hbit.symm
  · intro hzero
    refine Nat.lt_pow_two_of_testBit _ fun j hj => ?_
    rw [testBit_fieldNumber]
    by_cases hlt : j < s.fieldWidth last
    · rw [fieldWidth] at hlt
      rw [hzero _ (by omega) (by omega), Bool.and_false]
    · rw [decide_eq_false hlt, Bool.false_and]

theorem toNat_eq_fieldNumber {last : ℕ} {v : BitVec 64}
    (hwin : Window (dataBit s.msg) s.bitIndex (s.fieldWidth last) v)
    (hlt : s.fieldNumber last < 2 ^ 64) : v.toNat = s.fieldNumber last := by
  refine Nat.eq_of_testBit_eq fun j => ?_
  by_cases hj : j < 64
  · rw [BitVec.testBit_toNat, hwin j hj, testBit_fieldNumber]
  · rw [BitVec.testBit_toNat, BitVec.getLsbD_of_ge v j (by omega),
      Nat.testBit_lt_two_pow (Nat.lt_of_lt_of_le hlt (Nat.pow_le_pow_right (by decide) (by omega)))]

theorem topBits_eq_iff (msg : List Byte) (i : ℕ) :
    (slice msg i &&& 0xc0 = 0 ↔ dataBit msg (6 * i + 4) = false ∧ dataBit msg (6 * i + 5) = false) ∧
      (slice msg i &&& 0xc0 = 0x40 ↔ dataBit msg (6 * i + 4) = true ∧ dataBit msg (6 * i + 5) =
        false) := by
  rw [dataBit_of_lt msg (show 4 < 6 by decide) rfl, dataBit_of_lt msg (show 5 < 6 by decide) rfl]
  generalize slice msg i = b
  revert b
  decide

theorem varSlices_some (msg : List Byte) {left i w last w' : ℕ} {v v' : BitVec 64}
    (h : varSlices msg left i w v = some (last, w', v')) :
    i ≤ last ∧ last ≤ i + left ∧ (∀ k, i ≤ k → k < last → mseo msg k = MSEO_NORMAL) ∧
      mseo msg last ≠ MSEO_NORMAL ∧
      w' = w + 6 * (last - i) := by
  induction left generalizing i w v with
  | zero =>
    unfold varSlices at h
    split_ifs at h with hmark
    cases h
    exact ⟨Nat.le_refl _, Nat.le_refl _, fun k hk hlt => absurd hlt (Nat.not_lt.mpr hk),
      hmark, by omega⟩
  | succ left ih =>
    unfold varSlices at h
    split_ifs at h with hmark
    · obtain ⟨hle, hleft, hnormal, hlast, hw⟩ := ih h
      refine ⟨by omega, by omega, fun k hk hlt => ?_, hlast, by omega⟩
      rcases Nat.eq_or_lt_of_le hk with rfl | hlt'
      · exact hmark
      · exact hnormal k hlt' hlt
    · cases h
      exact ⟨Nat.le_refl _, Nat.le_add_right _ _, fun k hk hlt => absurd hlt (Nat.not_lt.mpr hk),
        hmark, by omega⟩

theorem varSlices_isSome (msg : List Byte) {left i w last : ℕ} {v : BitVec 64} (hle : i ≤ last)
    (hleft : last ≤ i + left)
    (hmark : mseo msg last ≠ MSEO_NORMAL) : ∃ r, varSlices msg left i w v = some r := by
  induction left generalizing i w v with
  | zero =>
    obtain rfl : i = last := by omega
    exact ⟨_, by rw [varSlices, if_neg hmark]⟩
  | succ left ih =>
    by_cases hnormal : mseo msg i = MSEO_NORMAL
    · have hne : i ≠ last := fun heq => hmark (heq ▸ hnormal)
      rw [varSlices, if_pos hnormal]
      exact ih (by omega) (by omega)
    · exact ⟨_, by rw [varSlices, if_neg hnormal]⟩

/-- What `parseVarField` returns for a field that ends. -/
theorem parseVarField_endsAt {last : ℕ} (h : s.EndsAt last) :
    if 64 < s.fieldWidth last ∧ slice s.msg last &&& 0xc0 ≠ 0 then ∃ s', parseVarField s =
      .error .err s'
    else ∃ v s', parseVarField s = .ok (v, s.fieldWidth last) s' := by
  have hfirst := h.first
  have hroom := h.room
  have hnot : ¬ s.msgSlices ≤ s.bitIndex / 6 := by omega
  obtain ⟨⟨last', w, v⟩, heq⟩ :=
    varSlices_isSome s.msg (w := 6 - s.bitIndex % 6)
      (v := (slice s.msg (s.bitIndex / 6) >>> (s.bitIndex % 6 + 2)).setWidth 64) hfirst (show last ≤
      s.bitIndex / 6 + (s.msgSlices - 1 - s.bitIndex / 6) by omega) h.mark
  obtain ⟨hle, hleft, hnormal, hmark, hw⟩ := varSlices_some s.msg heq
  obtain rfl : last' = last := EndsAt.unique ⟨hle, by omega, hnormal, hmark⟩ h
  have hwidth : w = s.fieldWidth last' := by
    rw [fieldWidth]
    omega
  rw [hwidth] at heq
  simp only [parseVarField, hnot, heq, if_false]
  by_cases hover : 64 < s.fieldWidth last' ∧ slice s.msg last' &&& 0xc0 ≠ 0
  · rw [if_pos hover, if_pos hover]
    exact ⟨_, rfl⟩
  · rw [if_neg hover, if_neg hover]
    exact ⟨v, _, rfl⟩

theorem endsAt_of_ok {r : BitVec 64 × ℕ} {s' : SliceFileParser} (h : parseVarField s = .ok r s') :
    ∃ last, s.EndsAt last := by
  simp only [parseVarField] at h
  split_ifs at h with hroom
  · cases h
  · cases heq : varSlices s.msg (s.msgSlices - 1 - s.bitIndex / 6) (s.bitIndex / 6)
        (6 - s.bitIndex % 6) ((slice s.msg (s.bitIndex / 6) >>> (s.bitIndex % 6 + 2)).setWidth
          64) with
    | none =>
      rw [heq] at h
      cases h
    | some r' =>
      obtain ⟨last, w, v⟩ := r'
      obtain ⟨hle, hleft, hnormal, hmark, -⟩ := varSlices_some s.msg heq
      exact ⟨last, hle, by omega, hnormal, hmark⟩

/-- A field that fits and is not refused is read exactly. -/
theorem parseVarField_fits {last : ℕ} (h : s.EndsAt last) (hlt : s.fieldNumber last < 2 ^ 64)
    (htop : 64 < s.fieldWidth last → slice s.msg last &&& 0xc0 = 0) :
    ∃ v s', parseVarField s = .ok (v, s.fieldWidth last) s' ∧ v.toNat = s.fieldNumber last := by
  obtain ⟨v, heq, hwin⟩ :=
    s.parseVarField_wide h.first h.room h.normal h.mark ((fieldNumber_lt_iff last).mp hlt) htop
  exact ⟨v, _, heq, toNat_eq_fieldNumber hwin hlt⟩

/-- Whether a field that ends is read exactly is a matter of the test and the number. -/
theorem readExactly_iff_of_endsAt {last : ℕ} (h : s.EndsAt last) :
    s.ReadExactly ↔ (64 < s.fieldWidth last ∧ slice s.msg last &&& 0xc0 ≠ 0 ↔ 2 ^ 64 ≤
        s.fieldNumber last) := by
  have hread := parseVarField_endsAt h
  rw [ReadExactly]
  by_cases hover : 64 < s.fieldWidth last ∧ slice s.msg last &&& 0xc0 ≠ 0
  · rw [if_pos hover] at hread
    obtain ⟨s', heq⟩ := hread
    rw [heq]
    exact ⟨fun hall => iff_of_true hover (hall last h), fun hiff last' h' => h.unique h' ▸
      hiff.mp hover⟩
  · rw [if_neg hover] at hread
    obtain ⟨v, s', heq⟩ := hread
    constructor
    · rw [heq]
      rintro ⟨last', h', hlt, -⟩
      obtain rfl := h.unique h'
      exact iff_of_false hover (Nat.not_le.mpr hlt)
    · intro hiff
      have hlt : s.fieldNumber last < 2 ^ 64 := Nat.lt_of_not_le fun hle => hover (hiff.mpr hle)
      obtain ⟨v', s'', heq', hv⟩ :=
        parseVarField_fits h hlt fun hw => not_not.mp fun hne => hover ⟨hw, hne⟩
      rw [heq']
      exact ⟨last, h, hlt, hv, rfl⟩

theorem fieldNumber_lt_of_width {last : ℕ} (hw : s.fieldWidth last ≤ 64) :
    s.fieldNumber last < 2 ^ 64 :=
  Nat.lt_of_lt_of_le (Nat.ofBits_lt_two_pow _) (Nat.pow_le_pow_right (by decide) hw)

/-- The test refuses exactly the fields that do not fit if the top two bits tell. -/
theorem topBitsTell_iff (last : ℕ) :
    s.TopBitsTell last ↔ (64 < s.fieldWidth last ∧ slice s.msg last &&& 0xc0 ≠ 0 ↔ 2 ^ 64 ≤
        s.fieldNumber last) := by
  obtain ⟨hzero, hone⟩ := topBits_eq_iff s.msg last
  have hlt := fieldNumber_lt_iff (s := s) last
  have hwidth : s.fieldWidth last = 6 * (last + 1) - s.bitIndex := rfl
  rw [TopBitsTell]
  rcases Nat.lt_trichotomy (s.fieldWidth last) 65 with hw | hw | hw
  · have hfits : s.fieldNumber last < 2 ^ 64 := fieldNumber_lt_of_width (by omega)
    exact iff_of_true (.inl (by omega)) (iff_of_false (fun h => by omega) (Nat.not_le.mpr hfits))
  · have hbit : s.fieldNumber last < 2 ^ 64 ↔ dataBit s.msg (6 * last + 5) = false := by
      refine hlt.trans ⟨fun h => h _ (by omega) (by omega), fun h k hk hkl => ?_⟩
      obtain rfl : k = 6 * last + 5 := by omega
      exact h
    rw [← Nat.not_lt (a := s.fieldNumber last), hbit, ne_eq, ne_eq, hzero, hone, hw]
    cases dataBit s.msg (6 * last + 4) <;> cases dataBit s.msg (6 * last + 5) <;> simp
  · have hbits : s.fieldNumber last < 2 ^ 64 ↔ slice s.msg last &&& 0xc0 = 0 ∧
        ∀ k, s.bitIndex + 64 ≤ k → k < 6 * last + 4 → dataBit s.msg k = false := by
      rw [hlt, hzero]
      refine ⟨fun h => ⟨⟨h _ (by omega) (by omega), h _ (by omega) (by omega)⟩, fun k hk hkl =>
        h k hk (by omega)⟩, fun h k hk hkl => ?_⟩
      obtain ⟨⟨hfour, hfive⟩, hrest⟩ := h
      rcases Nat.lt_trichotomy k (6 * last + 4) with hlow | rfl | hhigh
      · exact hrest k hk hlow
      · exact hfour
      · obtain rfl : k = 6 * last + 5 := by omega
        exact hfive
    have hnot : ¬ s.fieldWidth last ≤ 64 := by omega
    have hne : s.fieldWidth last ≠ 65 := by omega
    have hge : 66 ≤ s.fieldWidth last := by omega
    have hgt : 64 < s.fieldWidth last := by omega
    rw [← Nat.not_lt (a := s.fieldNumber last), hbits]
    simp only [hnot, hne, hge, hgt, false_and, true_and, false_or]
    tauto

/-- A variable field is read exactly if and only if the top two bits of its last
slice tell whether it fits. -/
theorem readExactly_iff : s.ReadExactly ↔ ∀ last, s.EndsAt last → s.TopBitsTell last := by
  by_cases hex : ∃ last, s.EndsAt last
  · obtain ⟨last, h⟩ := hex
    rw [readExactly_iff_of_endsAt h, ← topBitsTell_iff]
    exact ⟨fun htell last' h' => h.unique h' ▸ htell, fun hall => hall last h⟩
  · refine iff_of_true ?_ fun last h => absurd ⟨last, h⟩ hex
    rw [ReadExactly]
    cases heq : parseVarField s with
    | ok r s' => exact absurd (endsAt_of_ok heq) hex
    | error e s' => exact fun last h => absurd ⟨last, h⟩ hex

/-- A field of 65 bits that begins with the second data bit of a slice and stands for `2 ^ 63`. -/
def fullWord : SliceFileParser :=
  { init 0 [] with msg := List.replicate 10 0 ++ [0x43], msgSlices := 11, bitIndex := 1 }

/-- The field is refused although its number fits in a word. -/
theorem not_readExactly_fullWord : ¬ fullWord.ReadExactly := by
  have hends : fullWord.EndsAt 10 := ⟨by decide, by decide, by decide, by decide⟩
  have hindex : fullWord.bitIndex = 1 := rfl
  have hfits : fullWord.fieldNumber 10 < 2 ^ 64 := (fieldNumber_lt_iff 10).mpr fun k hk hlt => by
    obtain rfl : k = 65 := by omega
    decide
  rw [readExactly_iff_of_endsAt hends]
  exact fun hiff => Nat.not_le.mpr hfits (hiff.mp ⟨by decide, by decide⟩)

end SliceFileParser

end TraceDecoder
