import TraceDecoder.Recovery
import TraceDecoder.StreamMessages

/-!
# Data acquisition messages in slices

A variable field that starts and ends with a slice takes whole slices. The source of a data
acquisition message shares the slices of the tag, as if the two were one field.
-/

namespace TraceDecoder

open SliceFileParser BitStream

variable {fs gs : List WireField} {f : List Byte}

/-- The bits of the value of a field are its data bits. -/
theorem testBit_fieldValue (f : List Byte) (k : ℕ) : (fieldValue f).testBit k = dataBit f k := by
  induction f generalizing k with
  | nil =>
    rw [fieldValue_nil, Nat.zero_testBit, dataBit]
    exact BitVec.getLsbD_zero.symm
  | cons b f ih =>
    have hb : (b >>> 2).toNat < 2 ^ 6 := mdo_lt b
    rw [fieldValue_cons, Nat.add_comm]
    change (2 ^ 6 * fieldValue f + (b >>> 2).toNat).testBit k = _
    rw [Nat.testBit_two_pow_mul_add _ hb]
    by_cases hk : k < 6
    · have hdiv : k / 6 = 0 := by omega
      have hmod : k % 6 = k := by omega
      rw [if_pos hk, dataBit, hdiv, hmod, BitVec.testBit_toNat, BitVec.getLsbD_ushiftRight,
        Nat.add_comm]
      rfl
    · have hdiv : k / 6 = (k - 6) / 6 + 1 := by omega
      have hmod : k % 6 = (k - 6) % 6 := by omega
      rw [if_neg hk, ih, dataBit, dataBit, hdiv, hmod]
      rfl

/-! ### Fields of whole slices -/

/-- Behind a field of whole slices the message goes on as if it began there. -/
theorem encodeSlice_tail (field : WireField) {n : ℕ} (hwidth : field.width = 6 * n) (i : ℕ) :
    encodeSlice (field :: fs) (n + i) = encodeSlice fs i := by
  have hpos : 6 * (n + i + 1) = field.width + 6 * (i + 1) := by omega
  have hmark : endMark (field :: fs) (6 * (n + i + 1)) = endMark fs (6 * (i + 1)) := by
    rw [hpos, endMark_tail field fs (by omega)]
  have hdata : chunk 6 (wireStream (field :: fs)) (n + i) = chunk 6 (wireStream fs) i := by
    apply BitVec.eq_of_getLsbD_eq
    intro j hj
    have hbit : 6 * (n + i) + j = field.width + (6 * i + j) := by omega
    rw [getLsbD_chunk hj, getLsbD_chunk hj, hbit, wireStream, List.map_cons, ofFields_tail]
    rfl
  rw [encodeSlice, encodeSlice, hmark, hdata]

theorem encode_cons (field : WireField) (fs : List WireField) {n : ℕ}
    (hwidth : field.width = 6 * n) :
    encode (field :: fs) = (List.range n).map (encodeSlice (field :: fs)) ++ encode fs := by
  have hdiv : totalBits (field :: fs) / 6 = n + totalBits fs / 6 := by
    rw [totalBits, hwidth]
    omega
  have htail : (List.range (totalBits fs / 6)).map (encodeSlice (field :: fs) ∘ (n + ·)) =
      encode fs :=
    List.map_congr_left fun i _ => encodeSlice_tail field hwidth i
  rw [encode, hdiv, List.range_add, List.map_append, List.map_map, htail]

theorem fieldSlices_map {mark : Byte} {g : ℕ → Byte} {n : ℕ}
    (hinside : ∀ i < n, g i &&& 0x3 = MSEO_NORMAL)
    (hlast : g n &&& 0x3 = mark) : FieldSlices mark ((List.range (n + 1)).map g) := by
  induction n generalizing g with
  | zero => exact .last hlast
  | succ n ih =>
    have hrest := ih (g := g ∘ Nat.succ) (fun i hi => hinside (i + 1) (by omega)) hlast
    rw [List.range_succ_eq_map, List.map_cons, List.map_map]
    exact .cons (hinside 0 (by omega)) hrest

theorem fieldSlices_var {n v : ℕ} (hv : v < 2 ^ (6 * (n + 1))) (hpos : fs ≠ [] → 0 < totalBits fs) :
    let slices := (List.range (n + 1)).map (encodeSlice (.var (6 * (n + 1)) v :: fs))
    FieldSlices (if fs = [] then MSEO_END else MSEO_VAR_END) slices ∧ fieldValue slices = v := by
  intro slices
  constructor
  · refine fieldSlices_map (fun i hi => ?_) ?_
    · rw [encodeSlice_mseo, endMark_inside (by simp only [WireField.width]; omega)]
      rfl
    · rw [encodeSlice_mseo]
      by_cases hfs : fs = []
      · have hend : endMark [.var (6 * (n + 1)) v] (6 * (n + 1)) = 3 :=
          endMark_last [.var (6 * (n + 1)) v]
        rw [if_pos hfs, hfs, hend]
        rfl
      · rw [if_neg hfs, endMark_var (hpos hfs)]
        rfl
  · apply Nat.eq_of_testBit_eq
    intro k
    have hlen : slices.length = n + 1 := by rw [List.length_map, List.length_range]
    by_cases hk : k < 6 * (n + 1)
    · have hslice : slice slices (k / 6) = encodeSlice (.var (6 * (n + 1)) v :: fs) (k / 6) := by
        rw [slice, List.getD_eq_getElem _ _ (by omega)]
        simp only [slices, List.getElem_map, List.getElem_range]
      rw [testBit_fieldValue, dataBit, hslice, encodeSlice, BitVec.getLsbD_append,
        if_neg (by omega), Nat.add_sub_cancel, getLsbD_chunk_div (by decide), wireStream,
          List.map_cons]
      exact ofFields_head hk
    · have hlt := fieldValue_lt slices
      rw [hlen] at hlt
      have hpow : 2 ^ (6 * (n + 1)) ≤ 2 ^ k := Nat.pow_le_pow_right (by decide) (by omega)
      rw [Nat.testBit_lt_two_pow (hlt.trans_le hpow), Nat.testBit_lt_two_pow (hv.trans_le hpow)]

/-! ### The source and the tag -/

structure SameWire (fs gs : List WireField) : Prop where
  total : totalBits fs = totalBits gs
  stream : wireStream fs = wireStream gs
  ends : endsVar fs = endsVar gs

theorem SameWire.cons_fixed (h : SameWire fs gs) (w v : ℕ) :
    SameWire (.fixed w v :: fs) (.fixed w v :: gs) where
  total := by rw [totalBits, totalBits, h.total]
  stream := by
    funext k
    have hrest : ofFields (fs.map fun f => (f.width, f.value)) =
        ofFields (gs.map fun f => (f.width, f.value)) :=
      h.stream
    simp only [wireStream, List.map_cons, ofFields, hrest]
  ends := by
    funext k
    rw [endsVar, endsVar, h.ends]

theorem SameWire.encode_eq (h : SameWire fs gs) : encode fs = encode gs := by
  have hslice : encodeSlice fs = encodeSlice gs := by
    funext i
    rw [encodeSlice, encodeSlice, endMark, endMark, h.total, h.stream, h.ends]
  rw [encode, encode, h.total, hslice]

theorem sameWire_source (fs : List WireField) (srcbits src w t : ℕ) (hw : 0 < w)
    (hsrc : src < 2 ^ srcbits) :
    SameWire (sourceFields srcbits src ++ .var w t :: fs)
      (.var (srcbits + w) (src + 2 ^ srcbits * t) :: fs) := by
  by_cases h0 : 0 < srcbits
  · rw [sourceFields, if_pos h0]
    refine ⟨?_, ?_, ?_⟩
    · simp only [List.singleton_append, totalBits, WireField.width, Nat.add_assoc]
    · funext k
      simp only [List.singleton_append, wireStream, List.map_cons, WireField.width, WireField.value,
        ofFields]
      rw [Nat.add_comm src, Nat.testBit_two_pow_mul_add _ hsrc]
      by_cases hk : k < srcbits
      · rw [if_pos hk, if_pos (by omega), if_pos hk]
      · rw [if_neg hk, if_neg hk, Nat.sub_sub]
        by_cases hkw : k < srcbits + w
        · rw [if_pos (by omega), if_pos hkw]
        · rw [if_neg (by omega), if_neg hkw]
    · funext k
      simp only [List.singleton_append, endsVar, Nat.sub_sub]
      by_cases hk : srcbits < k
      · have heq : k - srcbits = w ↔ k = srcbits + w := by omega
        have hlt : w < k - srcbits ↔ srcbits + w < k := by omega
        simp only [hk, decide_true, Bool.true_and, heq, hlt]
      · have hne : ¬ k = srcbits + w := by omega
        have hnlt : ¬ srcbits + w < k := by omega
        simp only [hk, hne, hnlt, decide_false, Bool.false_and, Bool.or_false]
  · obtain rfl : srcbits = 0 := Nat.eq_zero_of_not_pos h0
    obtain rfl : src = 0 := Nat.lt_one_iff.mp hsrc
    rw [sourceFields, if_neg h0, Nat.zero_add, Nat.zero_add, pow_zero, one_mul]
    exact ⟨rfl, rfl, rfl⟩

/-! ### Data acquisition messages -/

theorem laid_source {srcbits src : ℕ} (h : Laid 6 (sourceFields srcbits src ++ fs))
    (hsrc : srcbits = 0 → src = 0) :
    src < 2 ^ srcbits ∧ Laid (6 + srcbits) fs := by
  by_cases h0 : 0 < srcbits
  · rw [sourceFields, if_pos h0] at h
    obtain ⟨-, hlt, -, -, hrest⟩ := h
    exact ⟨hlt, hrest⟩
  · obtain rfl : srcbits = 0 := Nat.eq_zero_of_not_pos h0
    rw [hsrc rfl]
    exact ⟨Nat.one_pos, h⟩

structure Acquisition (srcbits : ℕ) (fs : List WireField) (c : Content) (src t d : ℕ)
    (ts : Option (ℕ × ℕ)) : Prop where
  laidOut : ∃ w w₁, Laid (6 + srcbits) (.var w t :: .var w₁ d :: timestampFields ts) ∧
    fs = .fixed 6 7 :: (sourceFields srcbits src ++ (.var w t :: .var w₁ d :: timestampFields ts))
  source : src < 2 ^ srcbits
  content : c = ⟨.ofNat 8 src, ts.map fun t => .ofNat 64 t.2, .dataAcquisition (.ofNat 32 t)
    (.ofNat 32 d)⟩

theorem MessageFields.acquisition {srcbits : ℕ} {c : Content} (h : MessageFields srcbits fs c)
    (hlaid : Laid 0 fs)
    (hcode : c.body.tcode = .dataAcquisition) :
    ∃ src t d ts, Acquisition srcbits fs c src t d ts := by
  obtain @⟨fs, body, src, ts, hbody, hsrc⟩ := h
  cases hbody with
  | dataAcquisition w t w₁ d =>
    obtain ⟨-, -, -, -, hrest⟩ := hlaid
    obtain ⟨hlt, hvars⟩ := laid_source hrest hsrc
    exact ⟨src, t, d, ts, ⟨w, w₁, hvars, rfl⟩, hlt, rfl⟩
  | ict => cases hcode
  | ictWS => cases hcode
  | _ => cases hcode

variable {srcbits src t d : ℕ} {c : Content} {ts : Option (ℕ × ℕ)}

theorem encode_var (fs : List WireField) {w v : ℕ} (hw : 0 < w) (hmod : w % 6 = 0) (hv : v < 2 ^ w)
    (hpos : fs ≠ [] → 0 < totalBits fs) :
    ∃ f, encode (.var w v :: fs) = f ++ encode fs ∧
      FieldSlices (if fs = [] then MSEO_END else MSEO_VAR_END) f ∧ fieldValue f = v := by
  obtain ⟨n, rfl⟩ : ∃ n, w = 6 * (n + 1) := ⟨w / 6 - 1, by omega⟩
  exact ⟨_, encode_cons _ fs rfl, fieldSlices_var hv hpos⟩

theorem encodeSlice_dataAcquisition (hpos : 0 < totalBits fs) :
    encodeSlice (.fixed 6 7 :: fs) 0 = dataAcquisitionSlice := by
  have hdata : chunk 6 (wireStream (.fixed 6 7 :: fs)) 0 = 7 := by
    apply BitVec.eq_of_getLsbD_eq
    intro j hj
    rw [getLsbD_chunk hj, Nat.mul_zero, Nat.zero_add, wireStream, List.map_cons]
    exact ofFields_head hj
  have hmark : endMark (.fixed 6 7 :: fs) (6 * (0 + 1)) = 0 := by
    rw [endMark, if_neg (by simp only [totalBits, WireField.width]; omega)]
    rfl
  rw [encodeSlice, hdata, hmark]
  rfl

/-- Its slices are those of the fields, with the source in the low bits of the tag. -/
theorem Acquisition.slices (h : Acquisition srcbits fs c src t d ts) :
    DataAcquisitionSlices (encode fs) (src + 2 ^ srcbits * t) d (ts.map (·.2)) := by
  obtain ⟨⟨w, w₁, ⟨hw, hv, -, hmod, hw₁, hv₁, -, hmod₁, hlaid⟩, rfl⟩, hsrc, -⟩ := h
  have htagged : src + 2 ^ srcbits * t < 2 ^ (srcbits + w) := by
    rw [pow_add]
    calc src + 2 ^ srcbits * t < 2 ^ srcbits + 2 ^ srcbits * t := Nat.add_lt_add_right hsrc _
      _ = 2 ^ srcbits * (t + 1) := by ring
      _ ≤ 2 ^ srcbits * 2 ^ w := Nat.mul_le_mul_left _ hv
  have hpos : 0 < totalBits (.var w₁ d :: timestampFields ts) := by
    simp only [totalBits, WireField.width]
    omega
  have hwire :=
    ((sameWire_source (.var w₁ d :: timestampFields ts) srcbits src w t hw hsrc).cons_fixed 6
      7).encode_eq
  have hfirst := encode_cons (.fixed 6 7)
    (.var (srcbits + w) (src + 2 ^ srcbits * t) :: .var w₁ d :: timestampFields ts) (n := 1) rfl
  obtain ⟨f₀, hencode, hf₀, hvalue⟩ :=
    encode_var (.var w₁ d :: timestampFields ts) (by omega) (by omega) htagged fun _ => hpos
  rw [List.range_one, List.map_singleton,
    encodeSlice_dataAcquisition (by simp only [totalBits, WireField.width]; omega)] at hfirst
  rw [if_neg (List.cons_ne_nil _ _)] at hf₀
  rw [hwire, hfirst, hencode]
  cases ts with
  | none =>
    obtain ⟨f₁, hencode₁, hf₁, hvalue₁⟩ :=
      encode_var [] hw₁ (by omega) hv₁ fun hne => absurd rfl hne
    have hnil : encode [] = [] := rfl
    rw [if_pos rfl] at hf₁
    rw [hnil, List.append_nil] at hencode₁
    have hmsg := DataAcquisitionSlices.plain hf₀ hf₁
    rw [hvalue, hvalue₁, ← hencode₁] at hmsg
    exact hmsg
  | some ts =>
    obtain ⟨hw₂, hv₂, -, hmod₂, -⟩ := hlaid
    obtain ⟨f₁, hencode₁, hf₁, hvalue₁⟩ := encode_var [.var ts.1 ts.2] hw₁ (by omega) hv₁
      fun _ => by simp only [totalBits, WireField.width]; omega
    obtain ⟨f₂, hencode₂, hf₂, hvalue₂⟩ :=
      encode_var [] hw₂ (by omega) hv₂ fun hne => absurd rfl hne
    have hnil : encode [] = [] := rfl
    rw [if_neg (List.cons_ne_nil _ _)] at hf₁
    rw [if_pos rfl] at hf₂
    rw [hnil, List.append_nil] at hencode₂
    have hmsg := DataAcquisitionSlices.timestamped hf₀ hf₁ hf₂
    rw [hvalue, hvalue₁, hvalue₂, ← hencode₂, ← hencode₁] at hmsg
    exact hmsg

/-- No field is refused if the tag and the data fit: the field of the
timestamp starts with a slice. -/
theorem Acquisition.accepted (h : Acquisition srcbits fs c src t d ts) (ht : t < 2 ^ 32)
    (hd : d < 2 ^ 32) :
    Accepted fs := by
  obtain ⟨⟨w, w₁, ⟨-, -, -, hmod, -, -, -, hmod₁, hlaid⟩, rfl⟩, -, -⟩ := h
  have hvars : Accepted (.var w t :: .var w₁ d :: timestampFields ts) := by
    refine accepted_cons.mpr ⟨fun h => ?_, accepted_cons.mpr ⟨fun h => ?_, ?_⟩⟩
    · have hbig : 2 ^ 63 ≤ t := h.2
      omega
    · have hbig : 2 ^ 63 ≤ d := h.2
      omega
    · cases ts with
      | none => exact accepted_nil
      | some ts =>
        obtain ⟨-, -, -, hmod₂, -⟩ := hlaid
        refine accepted_cons.mpr ⟨fun h => ?_, accepted_nil⟩
        have hwidth : ts.1 = 65 := h.1
        omega
  rw [accepted_fixed, accepted_append]
  refine ⟨?_, hvars⟩
  rw [sourceFields]
  split_ifs
  · exact accepted_fixed.mpr accepted_nil
  · exact accepted_nil

end TraceDecoder
