import TraceDecoder.Lib.Success
import TraceDecoder.VarFields

/-!
# The wire format

A message on the wire is a list of fields with the number of bits each one takes. The encoder lays
their values end to end in slices of six bits and marks the slices: 11 ends the message, 01 ends a
variable field, 00 stands everywhere else. The field readers undo it: `Reading` says that the unread
part of a message is the encoding of the fields still to come, and each reader takes one field off,
but for a variable field that `parseVarField` refuses.
-/

namespace TraceDecoder

open BitStream SliceFileParser

/-- A variable field may take more bits than its value needs; the encoder chooses. -/
inductive WireField
  | fixed (width value : ℕ)
  | var (width value : ℕ)
  deriving DecidableEq, Repr

namespace WireField

def width : WireField → ℕ
  | fixed w _ | var w _ => w

def value : WireField → ℕ
  | fixed _ v | var _ v => v

end WireField

/-! ### Encoding -/

def totalBits : List WireField → ℕ
  | [] => 0
  | f :: fs => f.width + totalBits fs

def wireStream (fs : List WireField) : ℕ → Bool := ofFields (fs.map fun f => (f.width, f.value))

/-- Whether a variable field ends `k` bits into the message. -/
def endsVar : List WireField → ℕ → Bool
  | [], _ => false
  | .fixed w _ :: fs, k => decide (w < k) && endsVar fs (k - w)
  | .var w _ :: fs, k => decide (k = w) || decide (w < k) && endsVar fs (k - w)

/-- The end mark of the slice that ends `k` bits into the message. -/
def endMark (fs : List WireField) (k : ℕ) : BitVec 2 :=
  if k = totalBits fs then 3 else if endsVar fs k then 1 else 0

def encodeSlice (fs : List WireField) (i : ℕ) : Byte :=
  chunk 6 (wireStream fs) i ++ endMark fs (6 * (i + 1))

def encode (fs : List WireField) : List Byte :=
  (List.range (totalBits fs / 6)).map (encodeSlice fs)

/-- Fields that can be sent from bit `pos` on: each value fits its width and the width a 64-bit
word, each variable field ends at the end of a slice, and the last field is a variable one. -/
def Sendable : ℕ → List WireField → Prop
  | _, [] => True
  | pos, .fixed w v :: fs => 0 < w ∧ w ≤ 64 ∧ v < 2 ^ w ∧ fs ≠ [] ∧ Sendable (pos + w) fs
  | pos, .var w v :: fs => 0 < w ∧ w ≤ 64 ∧ v < 2 ^ w ∧ (pos + w) % 6 = 0 ∧ Sendable (pos + w) fs

instance : ∀ (pos : ℕ) (fs : List WireField), Decidable (Sendable pos fs)
  | _, [] => inferInstanceAs (Decidable True)
  | pos, .fixed w v :: fs =>
    have := instDecidableSendable (pos + w) fs
    inferInstanceAs (Decidable (0 < w ∧ w ≤ 64 ∧ v < 2 ^ w ∧ fs ≠ [] ∧ Sendable (pos + w) fs))
  | pos, .var w v :: fs =>
    have := instDecidableSendable (pos + w) fs
    inferInstanceAs (Decidable (0 < w ∧ w ≤ 64 ∧ v < 2 ^ w ∧ (pos + w) % 6 = 0 ∧
      Sendable (pos + w) fs))

/-- Fields that can be laid out from bit `pos` on: each value fits its width and a 64-bit word,
whatever the width is. -/
def Laid : ℕ → List WireField → Prop
  | _, [] => True
  | pos, .fixed w v :: fs => 0 < w ∧ v < 2 ^ w ∧ v < 2 ^ 64 ∧ fs ≠ [] ∧ Laid (pos + w) fs
  | pos, .var w v :: fs => 0 < w ∧ v < 2 ^ w ∧ v < 2 ^ 64 ∧ (pos + w) % 6 = 0 ∧ Laid (pos + w) fs

instance decidableLaid : ∀ (pos : ℕ) (fs : List WireField), Decidable (Laid pos fs)
  | _, [] => inferInstanceAs (Decidable True)
  | pos, .fixed w v :: fs =>
    have := decidableLaid (pos + w) fs
    inferInstanceAs (Decidable (0 < w ∧ v < 2 ^ w ∧ v < 2 ^ 64 ∧ fs ≠ [] ∧ Laid (pos + w) fs))
  | pos, .var w v :: fs =>
    have := decidableLaid (pos + w) fs
    inferInstanceAs (Decidable (0 < w ∧ v < 2 ^ w ∧ v < 2 ^ 64 ∧ (pos + w) % 6 = 0 ∧
      Laid (pos + w) fs))

def WireField.Refused : WireField → Prop
  | .fixed .. => False
  | .var w v => w = 65 ∧ 2 ^ 63 ≤ v

instance : DecidablePred WireField.Refused
  | .fixed .. => inferInstanceAs (Decidable False)
  | .var .. => inferInstanceAs (Decidable (_ ∧ _))

def Accepted (fs : List WireField) : Prop := ∀ f ∈ fs, ¬ f.Refused

instance : DecidablePred Accepted := fun fs => inferInstanceAs (Decidable (∀ f ∈ fs, ¬ f.Refused))

theorem accepted_nil : Accepted [] := List.forall_mem_nil _

theorem accepted_cons {f : WireField} {fs : List WireField} :
    Accepted (f :: fs) ↔ ¬ f.Refused ∧ Accepted fs :=
  List.forall_mem_cons

theorem accepted_fixed {w v : ℕ} {fs : List WireField} :
    Accepted (.fixed w v :: fs) ↔ Accepted fs :=
  accepted_cons.trans (and_iff_right id)

theorem accepted_append {fs gs : List WireField} :
    Accepted (fs ++ gs) ↔ Accepted fs ∧ Accepted gs :=
  List.forall_mem_append

theorem Sendable.laid {pos : ℕ} {fs : List WireField} (h : Sendable pos fs) :
    Laid pos fs ∧ Accepted fs := by
  induction fs generalizing pos with
  | nil => exact ⟨trivial, accepted_nil⟩
  | cons f fs ih =>
    have hword {w v : ℕ} (hw : w ≤ 64) (hv : v < 2 ^ w) : v < 2 ^ 64 :=
      hv.trans_le (Nat.pow_le_pow_right (by decide) hw)
    cases f with
    | fixed w v =>
      obtain ⟨hw, hw64, hv, hfs, hrest⟩ := h
      obtain ⟨hlaid, haccepted⟩ := ih hrest
      exact ⟨⟨hw, hv, hword hw64 hv, hfs, hlaid⟩, accepted_fixed.mpr haccepted⟩
    | var w v =>
      obtain ⟨hw, hw64, hv, hmod, hrest⟩ := h
      obtain ⟨hlaid, haccepted⟩ := ih hrest
      refine ⟨⟨hw, hv, hword hw64 hv, hmod, hlaid⟩, accepted_cons.mpr ⟨?_, haccepted⟩⟩
      rintro ⟨rfl, -⟩
      omega

theorem length_encode (fs : List WireField) : (encode fs).length = totalBits fs / 6 := by
  rw [encode, List.length_map, List.length_range]

theorem slice_encode {fs : List WireField} {i : ℕ} (hi : i < totalBits fs / 6) :
    slice (encode fs) i = encodeSlice fs i := by
  rw [slice, List.getD_eq_getElem _ _ (by rwa [length_encode])]
  simp only [encode, List.getElem_map, List.getElem_range]

theorem encodeSlice_mseo (fs : List WireField) (i : ℕ) :
    encodeSlice fs i &&& 0x03 = (endMark fs (6 * (i + 1))).setWidth 8 := by
  apply BitVec.eq_of_getLsbD_eq
  intro j hj
  have hmask : ∀ j < 8, (0x03 : Byte).getLsbD j = decide (j < 2) := by decide
  rw [encodeSlice, BitVec.getLsbD_and, BitVec.getLsbD_append, BitVec.getLsbD_setWidth, hmask j hj]
  by_cases hj2 : j < 2
  · simp only [hj, hj2, if_true, decide_true, Bool.and_true, Bool.true_and]
  · rw [BitVec.getLsbD_of_ge (endMark fs _) _ (by omega)]
    simp only [hj2, decide_false, Bool.and_false]

theorem laid_totalBits {pos : ℕ} {fs : List WireField} (h : Laid pos fs) (hne : fs ≠ []) :
    0 < totalBits fs ∧ (pos + totalBits fs) % 6 = 0 := by
  induction fs generalizing pos with
  | nil => exact absurd rfl hne
  | cons f fs ih =>
    cases f with
    | fixed w v =>
      obtain ⟨hw, -, -, hfs, hrest⟩ := h
      have htail := ih hrest hfs
      simp only [totalBits, WireField.width]
      omega
    | var w v =>
      obtain ⟨hw, -, -, hmod, hrest⟩ := h
      simp only [totalBits, WireField.width]
      rcases eq_or_ne fs [] with rfl | hfs
      · simp only [totalBits]
        omega
      · have htail := ih hrest hfs
        omega

theorem dataBit_encode {fs : List WireField} {k : ℕ} (hk : k / 6 < totalBits fs / 6) :
    dataBit (encode fs) k = wireStream fs k := by
  rw [dataBit, slice_encode hk, encodeSlice, BitVec.getLsbD_append, if_neg (by omega),
    Nat.add_sub_cancel, getLsbD_chunk_div (by decide)]

/-! ### Marks of the fields still to come -/

theorem endMark_last (fs : List WireField) : endMark fs (totalBits fs) = 3 := if_pos rfl

theorem endMark_tail (f : WireField) (fs : List WireField) {k : ℕ} (hk : 0 < k) :
    endMark (f :: fs) (f.width + k) = endMark fs k := by
  have hends : endsVar (f :: fs) (f.width + k) = endsVar fs k := by
    cases f <;> simp only [endsVar, WireField.width, Nat.add_sub_cancel_left] <;>
      simp only [show ∀ w, w < w + k by omega, show ∀ w, ¬ w + k = w by omega, decide_true,
        decide_false, Bool.true_and, Bool.false_or]
  simp only [endMark, totalBits, hends, Nat.add_left_cancel_iff]

theorem endMark_inside {f : WireField} {fs : List WireField} {k : ℕ} (hk : k < f.width) :
    endMark (f :: fs) k = 0 := by
  have hends : endsVar (f :: fs) k = false := by
    cases f <;> simp only [WireField.width] at hk <;>
      simp only [endsVar, show ¬ _ < k from Nat.not_lt.mpr hk.le, hk.ne, decide_false,
        Bool.false_and, Bool.or_false]
  have htotal : k ≠ totalBits (f :: fs) := by
    simp only [totalBits]
    omega
  simp only [endMark, htotal, hends, if_false, Bool.false_eq_true]

theorem endMark_var {w v : ℕ} {fs : List WireField} (h : 0 < totalBits fs) :
    endMark (.var w v :: fs) w = 1 := by
  have htotal : w ≠ totalBits (.var w v :: fs) := by
    simp only [totalBits, WireField.width]
    omega
  simp only [endMark, htotal, endsVar, decide_true, Bool.true_or, if_false, if_true]

/-! ### Taking fields off -/

/-- `s` is reading the message of `s₀` and has the fields `fs` before it. The end-of-message flag
may be up early, when only the last slice is left. -/
structure Reading (s₀ : SliceFileParser) (fs : List WireField) (s : SliceFileParser) : Prop where
  frame : s = { s₀ with bitIndex := s.bitIndex, eom := s.eom }
  laid : Laid s.bitIndex fs
  total : s.bitIndex + totalBits fs = 6 * s₀.msgSlices
  bits : ∀ k < totalBits fs, dataBit s₀.msg (s.bitIndex + k) = wireStream fs k
  marks : ∀ i < s₀.msgSlices, s.bitIndex < 6 * (i + 1) →
    mseo s₀.msg i = (endMark fs (6 * (i + 1) - s.bitIndex)).setWidth 8
  late : s.eom = true → 6 * s₀.msgSlices ≤ s.bitIndex + 6

def ReadingNext (s₀ : SliceFileParser) (fs : List WireField) (s : SliceFileParser) : Prop :=
  Reading s₀ fs s ∧ s.eom = fs.isEmpty

theorem ReadingNext.reading {s₀ s : SliceFileParser} {fs : List WireField}
    (h : ReadingNext s₀ fs s) :
    Reading s₀ fs s := h.1

theorem setWidth_endMark_eq_end {k : ℕ} {fs : List WireField} :
    ((endMark fs k).setWidth 8 == MSEO_END) = decide (k = totalBits fs) := by
  unfold endMark
  by_cases hk : k = totalBits fs
  · simp only [hk, if_true, decide_true]
    rfl
  · simp only [hk, if_false, decide_false]
    by_cases hv : endsVar fs k = true <;> simp only [hv, if_true, if_false, Bool.false_eq_true] <;>
      rfl

section
variable {s₀ s : SliceFileParser} {f : WireField} {fs : List WireField}

theorem Reading.bit_value (h : Reading s₀ (f :: fs) s) {j : ℕ} (hj : j < f.width) :
    dataBit s₀.msg (s.bitIndex + j) = f.value.testBit j := by
  rw [h.bits j (by simp only [totalBits]; omega), wireStream, List.map_cons, ofFields_head hj]

theorem Reading.window_value (h : Reading s₀ (f :: fs) s) {v : BitVec 64} (hword : f.value < 2 ^ 64)
    (hv : f.value < 2 ^ f.width) (hwin : Window (dataBit s₀.msg) s.bitIndex f.width v) :
    v = BitVec.ofNat 64 f.value := by
  have hnat := hwin.toNat_eq_of_lt hword hv fun j hj => h.bit_value hj
  rw [← hnat, BitVec.ofNat_toNat, BitVec.setWidth_eq]

theorem Reading.bit_zero (h : Reading s₀ (f :: fs) s) (hword : f.value < 2 ^ 64) {k : ℕ}
    (hk : s.bitIndex + 64 ≤ k) (hlt : k < s.bitIndex + f.width) : dataBit s₀.msg k = false := by
  have hbit := h.bit_value (show k - s.bitIndex < f.width by omega)
  rw [Nat.add_sub_cancel' (by omega)] at hbit
  rw [hbit]
  exact Nat.testBit_lt_two_pow (hword.trans_le (Nat.pow_le_pow_right (by decide) (by omega)))

/-- What is left of the message once a field is taken off. -/
theorem Reading.advance (h : Reading s₀ (f :: fs) s) (hrest : Laid (s.bitIndex + f.width) fs)
    {eom : Bool} (hlate : eom = true → 6 * s₀.msgSlices ≤ s.bitIndex + f.width + 6) :
    Reading s₀ fs { s with bitIndex := s.bitIndex + f.width, eom := eom } where
  frame := by
    conv_lhs => rw [h.frame]
  laid := hrest
  total := by
    have htotal := h.total
    simp only [totalBits] at htotal
    simp only
    omega
  bits k hk := by
    have hbit := h.bits (f.width + k) (by simp only [totalBits]; omega)
    rw [wireStream, List.map_cons, ofFields_tail] at hbit
    simp only [Nat.add_assoc, hbit, wireStream]
  marks i hi hlt := by
    simp only at hlt
    have hmark := h.marks i hi (by omega)
    have hpos : 6 * (i + 1) - s.bitIndex = f.width + (6 * (i + 1) - (s.bitIndex + f.width)) := by
      omega
    rw [hpos, endMark_tail f fs (by omega)] at hmark
    exact hmark
  late := hlate

end

theorem parseFixedField_reads (s₀ : SliceFileParser) (w v : ℕ) (fs : List WireField) :
    Succeeds (Reading s₀ (.fixed w v :: fs)) (parseFixedField w) (BitVec.ofNat 64 v)
      (Reading s₀ fs) := by
  intro s h
  obtain ⟨hw, hv, hword, hfs, hrest⟩ := h.laid
  obtain ⟨hpos, -⟩ := laid_totalBits hrest hfs
  have htotal := h.total
  simp only [totalBits, WireField.width] at htotal
  have hmsg : s.msg = s₀.msg := by rw [h.frame]
  have hslices : s.msgSlices = s₀.msgSlices := by rw [h.frame]
  have hzero : ∀ k, s.bitIndex + 64 ≤ k → k < s.bitIndex + w → dataBit s.msg k = false := by
    rw [hmsg]
    exact fun k hk hlt => h.bit_zero hword hk hlt
  obtain ⟨val, i, heq, hi, hwin⟩ := s.parseFixedField_wide hw hzero (by omega)
  rw [hmsg] at hwin
  obtain rfl : val = BitVec.ofNat 64 v := h.window_value hword hv hwin
  refine ⟨_, heq, h.advance hrest fun heom => ?_⟩
  rw [Bool.or_eq_true] at heom
  rcases heom with heom | heom
  · exact (h.late heom).trans (by omega)
  · -- the slice that was looked at ends the message, so no slice follows it
    have hmark := h.marks i (by omega) (by omega)
    rw [hmsg, hmark, setWidth_endMark_eq_end, decide_eq_true_eq] at heom
    simp only [totalBits, WireField.width] at heom
    simp only [WireField.width]
    omega

section
variable {s₀ s : SliceFileParser} {w v : ℕ} {fs : List WireField}

/-- The variable field in front ends where it has been laid out to end. -/
theorem Reading.endsAt (h : Reading s₀ (.var w v :: fs) s) :
    ∃ last, s.bitIndex + w = 6 * (last + 1) ∧ s.EndsAt last ∧ (mseo s.msg last == MSEO_END) =
      fs.isEmpty := by
  obtain ⟨hw, hv, hword, hmod, hrest⟩ := h.laid
  have htotal := h.total
  simp only [totalBits, WireField.width] at htotal
  have hmsg : s.msg = s₀.msg := by rw [h.frame]
  have hslices : s.msgSlices = s₀.msgSlices := by rw [h.frame]
  obtain ⟨last, hlast⟩ : ∃ last, s.bitIndex + w = 6 * (last + 1) :=
    ⟨(s.bitIndex + w) / 6 - 1, by omega⟩
  have hend : 6 * (last + 1) - s.bitIndex = w := by omega
  have hnormal : ∀ k, s.bitIndex / 6 ≤ k → k < last → mseo s.msg k = MSEO_NORMAL := by
    intro k hk hkl
    rw [hmsg, h.marks k (by omega) (by omega), endMark_inside
      (by simp only [WireField.width]; omega)]
    rfl
  have hmark : mseo s.msg last = (endMark (.var w v :: fs) w).setWidth 8 := by
    rw [hmsg, h.marks last (by omega) (by omega), hend]
  have hempty : (mseo s.msg last == MSEO_END) = fs.isEmpty := by
    rw [hmark, setWidth_endMark_eq_end]
    cases hfs : fs with
    | nil => simp only [totalBits, WireField.width, Nat.add_zero, decide_true, List.isEmpty_nil]
    | cons g gs =>
      have hpos := (laid_totalBits hrest (by rw [hfs]; exact List.cons_ne_nil g gs)).1
      rw [hfs] at hpos
      have hne : ¬ w = w + totalBits (g :: gs) := by omega
      simp only [totalBits, WireField.width, List.isEmpty_cons] at hne ⊢
      simp only [hne, decide_false]
  have hstop : mseo s.msg last ≠ MSEO_NORMAL := by
    rw [hmark]
    rcases eq_or_ne fs [] with rfl | hfs
    · have hend3 : endMark [.var w v] w = 3 := endMark_last [.var w v]
      rw [hend3]
      decide
    · rw [endMark_var (laid_totalBits hrest hfs).1]
      decide
  exact ⟨last, hlast, ⟨by omega, by omega, hnormal, hstop⟩, hempty⟩

/-- The top two bits of the last slice of a long field are zero, but for a field of 65 bits that has
bit 63 set. -/
theorem Reading.topBits (h : Reading s₀ (.var w v :: fs) s) {last : ℕ}
    (hlast : s.bitIndex + w = 6 * (last + 1))
    (hlong : 64 < w) : slice s.msg last &&& 0xc0 = 0 ↔ ¬ (WireField.var w v).Refused := by
  obtain ⟨hw, hv, hword, hmod, hrest⟩ := h.laid
  have hmsg : s.msg = s₀.msg := by rw [h.frame]
  have hbit : ∀ {j : ℕ}, j < w → dataBit s.msg (s.bitIndex + j) = v.testBit j :=
    fun hj => hmsg ▸ h.bit_value hj
  have hzero : ∀ {j : ℕ}, 64 ≤ j → v.testBit j = false :=
    fun hj => Nat.testBit_lt_two_pow (hword.trans_le (Nat.pow_le_pow_right (by decide) hj))
  have hfour := hbit (show w - 2 < w by omega)
  have hfive := hbit (show w - 1 < w by omega)
  rw [hzero (by omega), show s.bitIndex + (w - 1) = 6 * last + 5 by omega] at hfive
  rw [show s.bitIndex + (w - 2) = 6 * last + 4 by omega] at hfour
  rw [(topBits_eq_iff s.msg last).1, hfour, hfive, and_iff_left rfl]
  by_cases h65 : w = 65
  · subst h65
    have htop : v.testBit 63 = false ↔ v < 2 ^ 63 := by
      rw [Nat.testBit_eq_decide_div_mod_eq, decide_eq_false_iff_not]
      omega
    change v.testBit 63 = false ↔ ¬ (65 = 65 ∧ 2 ^ 63 ≤ v)
    rw [htop]
    omega
  · exact iff_of_true (hzero (by omega)) fun hrefused => h65 hrefused.1

theorem parseVarField_decides (s₀ : SliceFileParser) (w v : ℕ) (fs : List WireField) :
    Decides (¬ (WireField.var w v).Refused) (Reading s₀ (.var w v :: fs)) parseVarField
      (BitVec.ofNat 64 v, w) (ReadingNext s₀ fs) := by
  constructor
  · intro hread s h
    obtain ⟨hw, hv, hword, hmod, hrest⟩ := h.laid
    obtain ⟨last, hlast, hends, hempty⟩ := h.endsAt
    have htotal := h.total
    simp only [totalBits, WireField.width] at htotal
    have hmsg : s.msg = s₀.msg := by rw [h.frame]
    have hend : 6 * (last + 1) - s.bitIndex = w := by omega
    have hzero : ∀ k, s.bitIndex + 64 ≤ k → k < 6 * (last + 1) → dataBit s.msg k = false := by
      rw [hmsg]
      exact fun k hk hlt => h.bit_zero hword hk (show k < s.bitIndex + w by omega)
    obtain ⟨val, heq, hwin⟩ :=
      s.parseVarField_wide hends.first hends.room hends.normal hends.mark hzero fun hlong =>
        (h.topBits hlast (by omega)).mpr hread
    rw [hend, ← hlast] at heq
    rw [hend, hmsg] at hwin
    obtain rfl : val = BitVec.ofNat 64 v := h.window_value hword hv hwin
    refine ⟨_, heq, ?_⟩
    -- the flag cannot have been up before, unless this field is the last
    have hexact : (s.eom || mseo s.msg last == MSEO_END) = fs.isEmpty := by
      rw [hempty]
      cases hfs : fs with
      | nil => simp only [List.isEmpty_nil, Bool.or_true]
      | cons g gs =>
        have hpos := laid_totalBits hrest (by rw [hfs]; exact List.cons_ne_nil g gs)
        have heom : s.eom = false := by
          rw [← Bool.not_eq_true]
          intro heom
          have hlate := h.late heom
          omega
        rw [heom, List.isEmpty_cons, Bool.or_false]
    refine ⟨?_, hexact⟩
    refine h.advance hrest fun heom => ?_
    rw [hexact, List.isEmpty_iff] at heom
    rw [heom] at htotal
    simp only [totalBits, WireField.width] at htotal ⊢
    omega
  · intro hrefused s h
    rw [not_not] at hrefused
    obtain ⟨last, hlast, hends, -⟩ := h.endsAt
    have hwidth : s.fieldWidth last = w := by
      rw [fieldWidth]
      omega
    have hlong : 64 < w := by
      have h65 : w = 65 := hrefused.1
      omega
    have hread := parseVarField_endsAt hends
    rw [hwidth, if_pos ⟨hlong, fun hzero => (h.topBits hlast hlong).mp hzero hrefused⟩] at hread
    obtain ⟨s', hrun⟩ := hread
    exact ⟨_, s', hrun⟩

end

end TraceDecoder
