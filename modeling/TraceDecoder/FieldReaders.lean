import TraceDecoder.SliceFileParser
import TraceDecoder.Lib.BitStream

/-!
# What the field readers read

The data bits of a message form one stream, six bits a slice. Both field readers return the window
of that stream that starts at the bit index.
-/

namespace TraceDecoder

open BitStream

namespace SliceFileParser

variable (msg : List Byte)

def dataBit (k : ℕ) : Bool := (slice msg (k / 6)).getLsbD (k % 6 + 2)

theorem dataBit_of_lt {i b k : ℕ} (hb : b < 6) (hk : k = 6 * i + b) :
    dataBit msg k = (slice msg i).getLsbD (b + 2) := by
  have hdiv : k / 6 = i := by omega
  have hmod : k % 6 = b := by omega
  rw [dataBit, hdiv, hmod]

theorem shl64_of_lt (x : BitVec 64) {n : ℕ} (h : n < 64) : shl64 x n = x <<< n := by
  rw [shl64, Nat.mod_eq_of_lt h]

/-- The first slice of a field, shifted down to the field's first bit. -/
theorem window_first {i b start : ℕ} (hb : b < 6) (hstart : start = 6 * i + b) :
    Window (dataBit msg) start (6 - b) ((slice msg i >>> (b + 2)).setWidth 64) := by
  intro j hj
  rw [BitVec.getLsbD_setWidth, BitVec.getLsbD_ushiftRight]
  by_cases hjb : j < 6 - b
  · have hbit : dataBit msg (start + j) = (slice msg i).getLsbD (b + j + 2) :=
      dataBit_of_lt msg (b := b + j) (by omega) (by omega)
    have hpos : b + 2 + j = b + j + 2 := by omega
    simp only [hj, hjb, hbit, hpos, decide_true]
  · rw [BitVec.getLsbD_of_ge _ _ (by omega)]
    simp only [hjb, decide_false, Bool.and_false, Bool.false_and]

theorem window_data {i start : ℕ} (hstart : start = 6 * i) :
    Window (dataBit msg) start 6 (data msg i) :=
  window_first msg (b := 0) (by decide) hstart

theorem window_last {i r start : ℕ} (hr : 0 < r) (hr6 : r < 6) (hstart : start = 6 * i) :
    Window (dataBit msg) start r
      ((((slice msg i <<< (6 - r)) >>> (6 - r + 2)).setWidth 64 : BitVec 64)) := by
  intro j hj
  rw [BitVec.getLsbD_setWidth, BitVec.getLsbD_ushiftRight, BitVec.getLsbD_shiftLeft]
  by_cases hjr : j < r
  · have hbit : dataBit msg (start + j) = (slice msg i).getLsbD (j + 2) :=
      dataBit_of_lt msg (by omega) (by omega)
    have hpos : 6 - r + 2 + j - (6 - r) = j + 2 := by omega
    have hlt : 6 - r + 2 + j < 8 := by omega
    have hge : ¬ 6 - r + 2 + j < 6 - r := by omega
    simp only [hj, hjr, hbit, hpos, hlt, hge, decide_true, decide_false, Bool.not_false,
      Bool.true_and]
  · have hlt : ¬ 6 - r + 2 + j < 8 := by omega
    simp only [hjr, hlt, decide_false, Bool.false_and, Bool.and_false]

theorem window_insideField {i b width start : ℕ} (hb : b + width ≤ 6) (hw : 0 < width)
    (hstart : start = 6 * i + b) :
    Window (dataBit msg) start width (insideField msg i b width) := by
  intro j hj
  rw [insideField, BitVec.getLsbD_setWidth, BitVec.getLsbD_ushiftRight, BitVec.getLsbD_shiftLeft]
  by_cases hjw : j < width
  · have hbit : dataBit msg (start + j) = (slice msg i).getLsbD (b + j + 2) :=
      dataBit_of_lt msg (b := b + j) (by omega) (by omega)
    have hpos : 6 - (b + width) + b + 2 + j - (6 - (b + width)) = b + j + 2 := by omega
    have hlt : 6 - (b + width) + b + 2 + j < 8 := by omega
    have hge : ¬ 6 - (b + width) + b + 2 + j < 6 - (b + width) := by omega
    simp only [hj, hjw, hbit, hpos, hlt, hge, decide_true, decide_false, Bool.not_false,
      Bool.true_and]
  · have hlt : ¬ 6 - (b + width) + b + 2 + j < 8 := by omega
    simp only [hjw, hlt, decide_false, Bool.false_and, Bool.and_false]

/-- The slices of a field that lie behind a word are zero. -/
theorem data_eq_zero {start i w : ℕ} (hpos : start + w = 6 * i) (hw : 64 ≤ w)
    (hzero : ∀ k, start + 64 ≤ k → k < 6 * (i + 1) → dataBit msg k = false) : data msg i = 0 := by
  apply BitVec.eq_of_getLsbD_eq
  intro j hj
  rw [window_data msg hpos j hj]
  by_cases hj6 : j < 6
  · rw [hzero _ (by omega) (by omega), Bool.and_false]
    simp
  · simp [hj6]

/-- Behind the word the shift count wraps, but what is shifted is zero. -/
theorem shl64_of_zero {x : BitVec 64} {n : ℕ} (h : 64 ≤ n → x = 0) : shl64 x n = x <<< n := by
  by_cases hn : n < 64
  · exact shl64_of_lt x hn
  · rw [h (Nat.not_lt.mp hn), shl64]
    simp

/-- The loop keeps a window that ends at a slice boundary and leaves less than a slice to read. -/
theorem middleSlices_spec {start stop : ℕ} (fuel i consumed remainingWidth : ℕ)
    (tmp_val : BitVec 64) (hfuel : remainingWidth ≤ fuel) (hpos : start + consumed = 6 * i)
    (hstop : start + consumed + remainingWidth = stop)
    (hzero : ∀ k, start + 64 ≤ k → k < stop → dataBit msg k = false)
    (hwin : Window (dataBit msg) start consumed tmp_val) :
    ∃ i' consumed' r' v', middleSlices msg fuel i consumed remainingWidth tmp_val =
      (i', consumed', r', v') ∧
      start + consumed' = 6 * i' ∧ consumed' + r' = consumed + remainingWidth ∧ r' < 6 ∧
      Window (dataBit msg) start consumed' v' := by
  induction fuel generalizing i consumed remainingWidth tmp_val with
  | zero => exact ⟨i, consumed, remainingWidth, tmp_val, rfl, hpos, rfl, by omega, hwin⟩
  | succ fuel ih =>
    rw [middleSlices]
    by_cases h6 : 6 ≤ remainingWidth
    · have hdata : 64 ≤ consumed → data msg i = 0 :=
        fun hle => data_eq_zero msg hpos hle fun k hk hlt => hzero k hk (by omega)
      rw [if_pos h6, shl64_of_zero hdata]
      obtain ⟨i', consumed', r', v', heq, hpos', hsum, hr, hwin'⟩ :=
        ih (i + 1) (consumed + 6) (remainingWidth - 6) (tmp_val ||| data msg i <<< consumed)
          (by omega) (by omega) (by omega) (hwin.append (window_data msg hpos))
      exact ⟨i', consumed', r', v', heq, hpos', by omega, hr, hwin'⟩
    · rw [if_neg h6]
      exact ⟨i, consumed, remainingWidth, tmp_val, rfl, hpos, rfl, by omega, hwin⟩

/-- The slice that `eom` is read from is the one the next bit comes from, or the field's last. -/
theorem crossingField_spec {i b width start : ℕ} (hb : b < 6) (hcross : 6 < b + width)
    (hzero : ∀ k, start + 64 ≤ k → k < start + width → dataBit msg k = false)
    (hstart : start = 6 * i + b) :
    ∃ i' v, crossingField msg i b width = (i', v) ∧ i' = (start + width) / 6 ∧
      Window (dataBit msg) start width v := by
  obtain ⟨i', consumed, r, v, heq, hpos, hsum, hr, hwin⟩ :=
    middleSlices_spec msg width (i + 1) (6 - b) (width - (6 - b)) _ (by omega)
      (by omega) (by omega) hzero (window_first msg hb hstart)
  have hidx : i' = (start + width) / 6 := by omega
  simp only [crossingField, heq]
  by_cases hr0 : 0 < r
  · have hlast := window_last msg hr0 hr hpos
    have hout : 64 ≤ consumed →
        (((slice msg i' <<< (6 - r)) >>> (6 - r + 2)).setWidth 64 : BitVec 64) = 0 := by
      intro hle
      apply BitVec.eq_of_getLsbD_eq
      intro j hj
      rw [hlast j hj]
      by_cases hjr : j < r
      · rw [hzero _ (by omega) (by omega), Bool.and_false]
        simp
      · simp [hjr]
    rw [if_pos hr0, shl64_of_zero hout]
    have hall := hwin.append hlast
    rw [show consumed + r = width by omega] at hall
    exact ⟨_, _, rfl, hidx, hall⟩
  · rw [if_neg hr0]
    rw [show consumed = width by omega] at hwin
    exact ⟨_, _, rfl, hidx, hwin⟩

/-- A fixed field that ends before the message does and has no bit set that the word has no room for
is read exactly. -/
theorem parseFixedField_wide (s : SliceFileParser) {width : ℕ} (hw : 0 < width)
    (hzero : ∀ k, s.bitIndex + 64 ≤ k → k < s.bitIndex + width → dataBit s.msg k = false)
    (hroom : s.bitIndex + width < 6 * s.msgSlices) :
    ∃ val i, parseFixedField width s = .ok val
        { s with bitIndex := s.bitIndex + width, eom := s.eom || mseo s.msg i == MSEO_END } ∧
      (i = (s.bitIndex + width - 1) / 6 ∨ i = (s.bitIndex + width) / 6) ∧
      Window (dataBit s.msg) s.bitIndex width val := by
  have hb : s.bitIndex % 6 < 6 := Nat.mod_lt _ (by decide)
  have hstart : s.bitIndex = 6 * (s.bitIndex / 6) + s.bitIndex % 6 := (Nat.div_add_mod _ 6).symm
  have hroom' : ¬ s.msgSlices * 6 ≤ s.bitIndex + width := by omega
  have hw0 : width ≠ 0 := by omega
  by_cases hcross : 6 < s.bitIndex % 6 + width
  · obtain ⟨i, v, heq, hi, hwin⟩ := crossingField_spec s.msg hb hcross hzero hstart
    refine ⟨v, i, ?_, .inr hi, hwin⟩
    simp only [parseFixedField, hw0, hroom', hcross, heq, if_false, if_true]
  · refine ⟨insideField s.msg (s.bitIndex / 6) (s.bitIndex % 6) width, s.bitIndex / 6, ?_, .inl ?_,
      window_insideField s.msg (by omega) hw hstart⟩
    · simp only [parseFixedField, hw0, hroom', hcross, if_false]
    · omega

/-- The loop over a variable field that ends at slice `last` and has no bit set that
the word has no room for. -/
theorem varSlices_spec (start : ℕ) {last : ℕ} (left i w : ℕ) (v : BitVec 64)
    (hnormal : ∀ k, i ≤ k → k < last → mseo msg k = MSEO_NORMAL)
    (hlast : mseo msg last ≠ MSEO_NORMAL)
    (hle : i ≤ last) (hleft : last ≤ i + left) (hpos : start + w = 6 * (i + 1))
    (hzero : ∀ k, start + 64 ≤ k → k < 6 * (last + 1) → dataBit msg k = false)
    (hwin : Window (dataBit msg) start w v) :
    ∃ v', varSlices msg left i w v = some (last, 6 * (last + 1) - start, v') ∧
      Window (dataBit msg) start (6 * (last + 1) - start) v' := by
  induction left generalizing i w v with
  | zero =>
    obtain rfl : i = last := by omega
    obtain rfl : w = 6 * (i + 1) - start := by omega
    exact ⟨v, by rw [varSlices, if_neg hlast], hwin⟩
  | succ left ih =>
    by_cases heq : i = last
    · subst heq
      obtain rfl : w = 6 * (i + 1) - start := by omega
      exact ⟨v, by rw [varSlices, if_neg hlast], hwin⟩
    · rw [varSlices, if_pos (hnormal i le_rfl (by omega))]
      have hdata : 64 ≤ w → data msg (i + 1) = 0 :=
        fun hle => data_eq_zero msg hpos hle fun k hk hlt => hzero k hk (by omega)
      simp only [shl64_of_zero hdata]
      exact ih (i + 1) (w + 6) _ (fun k hk hkl => hnormal k (by omega) hkl) (by omega) (by omega)
        (by omega) (hwin.append (window_data msg hpos))

/-- A variable field that ends inside the message and has no bit set that the word has
no room for is read exactly. Of a field of more than 64 bits the top two bits of the
last slice have to be zero. -/
theorem parseVarField_wide (s : SliceFileParser) {last : ℕ} (hfirst : s.bitIndex / 6 ≤ last)
    (hroom : last < s.msgSlices)
    (hnormal : ∀ k, s.bitIndex / 6 ≤ k → k < last → mseo s.msg k = MSEO_NORMAL)
    (hlast : mseo s.msg last ≠ MSEO_NORMAL)
    (hzero : ∀ k, s.bitIndex + 64 ≤ k → k < 6 * (last + 1) → dataBit s.msg k = false)
    (htop : 64 < 6 * (last + 1) - s.bitIndex → slice s.msg last &&& 0xc0 = 0) :
    ∃ v, parseVarField s = .ok (v, 6 * (last + 1) - s.bitIndex)
        { s with
          bitIndex := 6 * (last + 1), eom := s.eom || mseo s.msg last == MSEO_END } ∧
      Window (dataBit s.msg) s.bitIndex (6 * (last + 1) - s.bitIndex) v := by
  have hb : s.bitIndex % 6 < 6 := Nat.mod_lt _ (by decide)
  have hstart : s.bitIndex = 6 * (s.bitIndex / 6) + s.bitIndex % 6 := (Nat.div_add_mod _ 6).symm
  obtain ⟨v, heq, hwin⟩ := varSlices_spec s.msg s.bitIndex (s.msgSlices - 1 - s.bitIndex / 6)
    (s.bitIndex / 6) (6 - s.bitIndex % 6) _ hnormal hlast hfirst (by omega) (by omega) hzero
    (window_first s.msg hb hstart)
  refine ⟨v, ?_, hwin⟩
  have hnot : ¬ s.msgSlices ≤ s.bitIndex / 6 := by omega
  have hover : ¬ (64 < 6 * (last + 1) - s.bitIndex ∧ slice s.msg last &&& 0xc0 ≠ 0) :=
    fun h => h.2 (htop h.1)
  have hend : s.bitIndex + (6 * (last + 1) - s.bitIndex) = 6 * (last + 1) := by omega
  simp only [parseVarField, hnot, heq, hover, hend, if_false]

end SliceFileParser

end TraceDecoder
