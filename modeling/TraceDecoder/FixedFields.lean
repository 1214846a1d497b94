import Mathlib.Tactic.Common
import TraceDecoder.FieldReaders

/-!
# Fixed fields and the end of the message

A fixed field is read exactly where it ends before the message does. The end of the message is
looked for in the slice that the loop has come to, which is the one behind the field when the field
runs up to the end of a slice.
-/

namespace TraceDecoder

open BitStream

namespace SliceFileParser

variable (s : SliceFileParser) (width : ℕ)

/-- The number that the next `width` data bits stand for. -/
def fixedNumber : ℕ := Nat.ofBits fun j : Fin width => dataBit s.msg (s.bitIndex + j)

/-- Slice `i` holds a bit of the field. -/
def HoldsBit (i : ℕ) : Prop := ∃ j < width, (s.bitIndex + j) / 6 = i

def EndsInside : Prop := ∃ i, s.HoldsBit width i ∧ mseo s.msg i = MSEO_END

/-- The state that `parseFixedField` leaves. -/
def afterFixedField : SliceFileParser :=
  match parseFixedField width s with
  | .ok _ s' => s'
  | .error _ s' => s'

structure FixedExact : Prop where
  ok : (∃ val s', parseFixedField width s = .ok val s') ↔ s.bitIndex + width < 6 * s.msgSlices
  result : ∀ val s', parseFixedField width s = .ok val s' → val.toNat = s.fixedNumber width ∧
    s'.bitIndex = s.bitIndex + width
  eom : (s.afterFixedField width).eom = true → s.eom = true ∨ s.EndsInside width

def testedSlice : ℕ :=
  if 6 < s.bitIndex % 6 + width then (s.bitIndex + width) / 6 else s.bitIndex / 6

/-- The field runs over the end of a slice and up to the end of one, and the slice behind it ends
the message. -/
structure EndBehind : Prop where
  room : s.bitIndex + width < 6 * s.msgSlices
  crossing : 6 < s.bitIndex % 6 + width
  full : (s.bitIndex + width) % 6 = 0
  mark : mseo s.msg ((s.bitIndex + width) / 6) = MSEO_END

variable {s width}

theorem toNat_eq_fixedNumber {v : BitVec 64} (hw64 : width ≤ 64)
    (hwin : Window (dataBit s.msg) s.bitIndex width v) :
    v.toNat = s.fixedNumber width := by
  apply hwin.toNat_eq hw64 (Nat.ofBits_lt_two_pow _)
  intro j hj
  exact (Nat.testBit_ofBits_lt (fun j : Fin width => dataBit s.msg (s.bitIndex + j)) j hj).symm

/-- What `parseFixedField` does with a field that ends before the message. -/
theorem parseFixedField_ok (hw : 0 < width) (hw64 : width ≤ 64)
    (hroom : s.bitIndex + width < 6 * s.msgSlices) :
    ∃ val, parseFixedField width s = .ok val
        { s with bitIndex := s.bitIndex + width, eom := s.eom || mseo s.msg (s.testedSlice width) ==
          MSEO_END } ∧
      val.toNat = s.fixedNumber width := by
  have hb : s.bitIndex % 6 < 6 := Nat.mod_lt _ (by decide)
  have hstart : s.bitIndex = 6 * (s.bitIndex / 6) + s.bitIndex % 6 := (Nat.div_add_mod _ 6).symm
  have hroom' : ¬ s.msgSlices * 6 ≤ s.bitIndex + width := by omega
  have hw0 : width ≠ 0 := by omega
  by_cases hcross : 6 < s.bitIndex % 6 + width
  · obtain ⟨i, v, heq, hi, hwin⟩ :=
      crossingField_spec s.msg hb hcross (fun k hk hlt => by omega) hstart
    refine ⟨v, ?_, toNat_eq_fixedNumber hw64 hwin⟩
    simp only [parseFixedField, testedSlice, hw0, hroom', hcross, heq, hi, if_false, if_true]
  · refine ⟨insideField s.msg (s.bitIndex / 6) (s.bitIndex % 6) width, ?_,
      toNat_eq_fixedNumber hw64 (window_insideField s.msg (by omega) hw hstart)⟩
    simp only [parseFixedField, testedSlice, hw0, hroom', hcross, if_false]

theorem parseFixedField_eom (hw : 0 < width) (hroom : ¬ s.bitIndex + width < 6 * s.msgSlices) :
    parseFixedField width s = .error .eom
      { s with bitIndex := s.bitIndex + width, status := .eom } := by
  have hroom' : s.msgSlices * 6 ≤ s.bitIndex + width := by omega
  simp only [parseFixedField, Nat.ne_of_gt hw, hroom', if_false, if_true, fail]

/-- The tested slice holds a bit of the field, or it is the one behind it. -/
theorem holdsBit_testedSlice (hw : 0 < width)
    (hnot : ¬ (6 < s.bitIndex % 6 + width ∧ (s.bitIndex + width) % 6 = 0)) :
    s.HoldsBit width (s.testedSlice width) := by
  unfold testedSlice
  split_ifs with hcross
  · refine ⟨width - 1, by omega, ?_⟩
    have hfull : (s.bitIndex + width) % 6 ≠ 0 := fun h => hnot ⟨hcross, h⟩
    omega
  · exact ⟨0, hw, rfl⟩

/-- **A fixed field is exact if and only if the slice behind it is not taken for its end**, or
nothing comes of that. -/
theorem fixedExact_iff (s : SliceFileParser) (width : ℕ) (hw : 0 < width) (hw64 : width ≤ 64) :
    s.FixedExact width ↔ (s.EndBehind width → s.eom = true ∨ s.EndsInside width) := by
  constructor
  · intro h hbehind
    apply h.eom
    obtain ⟨val, hparse, -⟩ := parseFixedField_ok hw hw64 hbehind.room
    unfold afterFixedField
    rw [hparse]
    change (s.eom || mseo s.msg (s.testedSlice width) == MSEO_END) = true
    rw [testedSlice, if_pos hbehind.crossing, hbehind.mark, beq_self_eq_true, Bool.or_true]
  · intro h
    by_cases hroom : s.bitIndex + width < 6 * s.msgSlices
    · obtain ⟨val, hparse, hval⟩ := parseFixedField_ok hw hw64 hroom
      refine ⟨⟨fun _ => hroom, fun _ => ⟨val, _, hparse⟩⟩, ?_, ?_⟩
      · intro val' s' hparse'
        rw [hparse] at hparse'
        cases hparse'
        exact ⟨hval, rfl⟩
      · intro heom
        unfold afterFixedField at heom
        rw [hparse] at heom
        rcases Bool.or_eq_true _ _ ▸ heom with heom | hmark
        · exact .inl heom
        · have hend := eq_of_beq hmark
          by_cases hnext : 6 < s.bitIndex % 6 + width ∧ (s.bitIndex + width) % 6 = 0
          · rw [testedSlice, if_pos hnext.1] at hend
            exact h ⟨hroom, hnext.1, hnext.2, hend⟩
          · exact .inr ⟨_, holdsBit_testedSlice hw hnext, hend⟩
    · have hparse := parseFixedField_eom hw hroom
      refine ⟨⟨?_, fun hlt => absurd hlt hroom⟩, ?_, ?_⟩
      · rintro ⟨val, s', hparse'⟩
        rw [hparse] at hparse'
        cases hparse'
      · intro val s' hparse'
        rw [hparse] at hparse'
        cases hparse'
      · intro heom
        unfold afterFixedField at heom
        rw [hparse] at heom
        exact .inl heom

def slices (msg : List Byte) : SliceFileParser :=
  { SliceFileParser.init 0 [] with msg := msg, msgSlices := msg.length }

theorem fixedExact_six : FixedExact (slices [0x58, 0x03]) 6 := by
  apply (fixedExact_iff _ 6 (by decide) (by decide)).mpr
  intro hbehind
  exact absurd hbehind.crossing (by decide)

/-- A field of twelve bits in front of the last slice. -/
theorem not_fixedExact : ¬ FixedExact (slices [0x58, 0x00, 0x03]) 12 := by
  intro h
  rcases h.eom rfl with heom | ⟨i, ⟨j, hj, hi⟩, hmark⟩
  · exact Bool.false_ne_true heom
  · have hbits : i = 0 ∨ i = 1 := by
      change (0 + j) / 6 = i at hi
      omega
    rcases hbits with rfl | rfl
    · exact absurd hmark (by decide)
    · exact absurd hmark (by decide)

end SliceFileParser

end TraceDecoder
