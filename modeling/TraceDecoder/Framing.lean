import TraceDecoder.RoundTrip

/-!
# Messages in the file

A message is framed by its end mark: `readBinaryMsg` finds the first slice of an encoded message,
collects its slices and stops behind the last one.
-/

namespace TraceDecoder

open BitStream SliceFileParser

theorem skipIdle_start {b : Byte} {tf : List Byte} (hb : b ≠ 0x00) (hm : b &&& 0x03 = MSEO_NORMAL) :
    skipIdle (b :: tf) = b :: tf := by
  rw [skipIdle, if_neg]
  rintro (h | h)
  · exact hb h
  · exact h hm

theorem collectSlices_append (tf : List Byte) {last : Byte} (hlast : last &&& 0x03 = MSEO_END)
    (slices msg : List Byte) (hslices : ∀ b ∈ slices, b &&& 0x03 ≠ MSEO_END)
    (hroom : msg.length + slices.length < 64) :
    collectSlices msg (slices ++ last :: tf) = .msg (msg ++ slices ++ [last]) tf := by
  induction slices generalizing msg with
  | nil =>
    rw [List.length_nil] at hroom
    rw [List.nil_append, collectSlices, if_neg (by omega), if_pos hlast, List.append_nil]
  | cons b slices ih =>
    rw [List.length_cons] at hroom
    have hb : b &&& 0x03 ≠ MSEO_END := hslices b List.mem_cons_self
    have hrest := ih (msg ++ [b]) (fun c hc => hslices c (List.mem_cons_of_mem b hc))
      (by rw [List.length_append, List.length_singleton]; omega)
    rw [List.cons_append, collectSlices, if_neg (by omega), if_neg hb, hrest]
    simp only [List.append_assoc, List.singleton_append]

/-- A message as it stands in the file: it starts with a slice that can start a message, its last
slice is the first one with an end mark, and it fits the buffer. -/
inductive Framed : List Byte → Prop
  | mk {first last : Byte} {middle : List Byte} (hfirst : first ≠ 0x00)
      (hmark : first &&& 0x03 = MSEO_NORMAL) (hmiddle : ∀ b ∈ middle, b &&& 0x03 ≠ MSEO_END)
      (hlast : last &&& 0x03 = MSEO_END) (hlen : middle.length ≤ 62) :
      Framed (first :: (middle ++ [last]))

theorem readBinaryMsg_framed (s : SliceFileParser) {msg : List Byte} (rest : List Byte)
    (hmsg : Framed msg) (hflush : s.flushMessage = false) (htf : s.tf = msg ++ rest) :
    readBinaryMsg s = (.ok, true, { s with
      tf := rest, tellg := s.tellg + msg.length, msgOffset := BitVec.ofNat 32 (s.tellg + 1) - 1
      msg := msg, msgSlices := msg.length, bitIndex := 0, eom := false }) := by
  obtain @⟨first, last, middle, hfirst, hmark, hmiddle, hlast, hlen⟩ := hmsg
  have hcollect := collectSlices_append rest hlast middle [first] hmiddle
    (by rw [List.length_singleton]; omega)
  rw [readBinaryMsg, hflush, htf]
  simp only [List.cons_append, List.append_assoc, List.nil_append, Bool.false_eq_true, if_false,
    skipIdle_start hfirst hmark] at hcollect ⊢
  rw [hcollect]
  simp only [List.length_cons, List.length_append, List.length_nil, Prod.mk.injEq, true_and,
    SliceFileParser.mk.injEq, and_true]
  refine ⟨by omega, ?_⟩
  congr 2
  omega

/-- In front of a message the parser reads all of its fields. -/
theorem reading_start {fs : List WireField} {s : SliceFileParser} (hlaid : Laid 0 fs)
    (hmod : totalBits fs % 6 = 0) (hmsg : s.msg = encode fs)
    (hslices : s.msgSlices = (encode fs).length)
    (hbit : s.bitIndex = 0) (heom : s.eom = false) : Reading s fs s where
  frame := rfl
  laid := hbit ▸ hlaid
  total := by
    rw [hslices, length_encode, hbit]
    omega
  bits k hk := by rw [hmsg, hbit, Nat.zero_add, dataBit_encode (by omega)]
  marks i hi _ := by
    rw [hslices, length_encode] at hi
    rw [hmsg, hbit, mseo, slice_encode hi, encodeSlice_mseo, Nat.sub_zero]
  late h := by
    rw [heom] at h
    cases h

theorem encodeSlice_end_iff (fs : List WireField) (i : ℕ) :
    encodeSlice fs i &&& 0x03 = MSEO_END ↔ 6 * (i + 1) = totalBits fs := by
  rw [encodeSlice_mseo, ← beq_iff_eq, setWidth_endMark_eq_end, decide_eq_true_eq]

/-- The slices of a message: a first one, some in the middle and the last one. -/
theorem encode_eq {fs : List WireField} {n : ℕ} (htotal : totalBits fs = 6 * (n + 2)) :
    encode fs = encodeSlice fs 0 :: ((List.range n).map (fun i => encodeSlice fs (i + 1)) ++
      [encodeSlice fs (n + 1)]) := by
  have hdiv : totalBits fs / 6 = n + 2 := by omega
  rw [encode, hdiv, List.range_succ, List.map_append, List.range_succ_eq_map, List.map_cons,
    List.map_map]
  rfl

theorem framed_encode {fs : List WireField} {n : ℕ} (htotal : totalBits fs = 6 * (n + 2))
    (hlen : (encode fs).length ≤ 64) (hfirst : encodeSlice fs 0 ≠ 0x00)
    (hmark : encodeSlice fs 0 &&& 0x03 = MSEO_NORMAL) : Framed (encode fs) := by
  have hend : encodeSlice fs (n + 1) &&& 0x03 = MSEO_END :=
    (encodeSlice_end_iff fs _).mpr (by omega)
  have hmiddle : ∀ b ∈ (List.range n).map (fun i => encodeSlice fs (i + 1)), b &&& 0x03 ≠
      MSEO_END := by
    intro b hb
    obtain ⟨i, hi, rfl⟩ := List.mem_map.mp hb
    rw [List.mem_range] at hi
    rw [Ne, encodeSlice_end_iff]
    omega
  rw [length_encode] at hlen
  rw [encode_eq htotal]
  exact .mk hfirst hmark hmiddle hend (by rw [List.length_map, List.length_range]; omega)

/-! ### Encoded messages -/

theorem Layout.tcode_ne_zero {fs : List WireField} {body : MessageBody} (h : Layout fs body) :
    body.tcode.toNat ≠ 0 := by
  cases h <;> exact of_decide_eq_true rfl

namespace MessageFields

variable {srcbits : ℕ} {fs : List WireField} {c : Content}

theorem totalBits_eq (h : MessageFields srcbits fs c) (hlaid : Laid 0 fs) :
    ∃ n, totalBits fs = 6 * (n + 2) := by
  obtain @⟨fs, body, src, ts, hbody, hsrc⟩ := h
  obtain ⟨-, -, -, hne, hrest⟩ := hlaid
  have htail := laid_totalBits hrest hne
  refine ⟨(6 + totalBits (sourceFields srcbits src ++ (fs ++ timestampFields ts))) / 6 - 2, ?_⟩
  simp only [totalBits, WireField.width]
  omega

/-- The first slice holds the message code and starts the message. -/
theorem first (h : MessageFields srcbits fs c) (hlaid : Laid 0 fs) :
    encodeSlice fs 0 ≠ 0x00 ∧ encodeSlice fs 0 &&& 0x03 = MSEO_NORMAL := by
  obtain ⟨n, htotal⟩ := h.totalBits_eq hlaid
  obtain @⟨fs, body, src, ts, hbody, hsrc⟩ := h
  constructor
  · obtain ⟨j, hj⟩ := Nat.exists_testBit_of_ne_zero hbody.tcode_ne_zero
    have hj6 : j < 6 := by
      by_contra hge
      have hlt := body.tcode.toNat_lt.trans_le (Nat.pow_le_pow_right (by decide) (not_lt.mp hge))
      rw [Nat.testBit_lt_two_pow hlt] at hj
      exact absurd hj (by decide)
    intro hzero
    have hbit : (encodeSlice (.fixed 6 body.tcode.toNat ::
        (sourceFields srcbits src ++ (fs ++ timestampFields ts))) 0).getLsbD (j + 2) = true := by
      rw [encodeSlice, BitVec.getLsbD_append, if_neg (by omega), Nat.add_sub_cancel,
        getLsbD_chunk hj6, Nat.mul_zero, Nat.zero_add, wireStream, List.map_cons]
      exact (ofFields_head hj6).trans hj
    rw [hzero] at hbit
    simp at hbit
  · have hmark : endMark (.fixed 6 body.tcode.toNat ::
        (sourceFields srcbits src ++ (fs ++ timestampFields ts))) (6 * (0 + 1)) = 0 := by
      rw [endMark, if_neg (by omega)]
      rfl
    rw [encodeSlice_mseo, hmark]
    rfl

theorem framed (h : MessageFields srcbits fs c) (hlaid : Laid 0 fs)
    (hlen : (encode fs).length ≤ 64) :
    Framed (encode fs) := by
  obtain ⟨n, htotal⟩ := h.totalBits_eq hlaid
  obtain ⟨hfirst, hmark⟩ := h.first hlaid
  exact framed_encode htotal hlen hfirst hmark

end MessageFields

namespace SliceFileParser.ReadResult

/-- The call returns the message with all of its fields. Its `n` slices are used up, `rest` follows
them in the file, and nothing behind the arrays of the analytics has been written. -/
structure Returns (r : ReadResult) (coreId : BitVec 8) (body : MessageBody)
    (timestamp : Option TIMESTAMP) (n : ℕ) (rest : List Byte) : Prop where
  rc : r.rc = .ok
  haveMsg : r.haveMsg = true
  coreId : r.nm.coreId = coreId
  body : r.nm.body = body
  haveTimestamp : r.nm.haveTimestamp = timestamp.isSome
  timestamp : r.nm.timestamp = timestamp.getD 0
  bitIndex : r.parser.bitIndex = 6 * r.parser.msgSlices
  msgSlices : r.parser.msgSlices = n
  tf : r.parser.tf = rest
  status : r.parser.status = .ok
  inside : r.analytics.overrun = false

end SliceFileParser.ReadResult

/-- **Wire-format round trip.** Wherever a message stands at the front of the file, encoded with any
choice of field widths that fits 64 slices, `readNextTraceMsg` returns it with all of its fields and
uses up its slices, and it stays inside the arrays exactly if there is such a core. -/
theorem readNextTraceMsg_encode_iff (s : SliceFileParser) (analytics : Analytics)
    (nm : NexusMessage)
    (c : WireChoices) (coreId : BitVec 8) (body : MessageBody) (timestamp : Option TIMESTAMP)
    (rest : List Byte) (hcore : coreId.toNat < 2 ^ s.srcbits)
    (hbody : Encodable body) (hsend : Sendable 0 (messageFields s.srcbits c coreId body timestamp))
    (hlen : (encode (messageFields s.srcbits c coreId body timestamp)).length ≤ 64)
    (htf : s.tf = encode (messageFields s.srcbits c coreId body timestamp) ++ rest)
    (hstatus : s.status = .ok) (hflush : s.flushMessage = false)
    (hanalytics : analytics.status = .ok) (hinside : analytics.overrun = false) :
    (s.readNextTraceMsg analytics nm).Returns coreId body timestamp
      (encode (messageFields s.srcbits c coreId body timestamp)).length rest ↔
      coreId.toNat < DQR_MAXCORES := by
  obtain ⟨hlaid, haccepted⟩ := hsend.laid
  have hfields := messageFields_layout c hcore hbody timestamp
  obtain ⟨n, htotal⟩ := hfields.totalBits_eq hlaid
  have hread := readBinaryMsg_framed s rest (hfields.framed hlaid hlen) hflush htf
  set fs := messageFields s.srcbits c coreId body timestamp with hfs
  set s₀ : SliceFileParser := { s with
    tf := rest, tellg := s.tellg + (encode fs).length, msgOffset :=
      BitVec.ofNat 32 (s.tellg + 1) - 1
    msg := encode fs, msgSlices := (encode fs).length, bitIndex := 0, eom := false } with hs₀
  have hstart : Reading s₀ fs s₀ := reading_start hlaid (by omega) rfl rfl rfl rfl
  obtain ⟨bits, ts_bits, addr_bits, hparse⟩ :=
    parseTraceMsg_decides s₀ hfields
  obtain ⟨s', hrun, hend, -⟩ := hparse.succeeds haccepted s₀ hstart
  have hknown : unknownBody body = false := by
    cases body with
    | other => exact absurd hbody id
    | resourceFull r => cases r <;> first | rfl | exact absurd hbody id
    | _ => rfl
  have htotal' := hend.total
  have hframe := hend.frame
  have hrun' : ∀ r, r = s.readNextTraceMsg analytics nm →
      (r.Returns coreId body timestamp (encode fs).length rest ↔ coreId.toNat < DQR_MAXCORES) := by
    intro r hr
    simp only [readNextTraceMsg, hstatus, hread, hrun, Analytics.updateTraceInfo_status, hknown,
      hanalytics, ne_eq, not_true_eq_false, if_false, Bool.false_eq_true, Bool.true_eq_false] at hr
    have hoverrun : r.analytics.overrun = decide (DQR_MAXCORES ≤ coreId.toNat) := by
      rw [hr]
      change (analytics.overrun || decide (DQR_MAXCORES ≤ coreId.toNat)) = _
      rw [hinside, Bool.false_or]
    refine ⟨fun h => ?_, fun hlt => ?_⟩
    · have hle := hoverrun.symm.trans h.inside
      exact Nat.lt_of_not_le (of_decide_eq_false hle)
    · have hin : r.analytics.overrun = false :=
        hoverrun.trans (decide_eq_false (Nat.not_le.mpr hlt))
      have hbits : s'.bitIndex = 6 * s'.msgSlices := by
        rw [hframe]
        simpa only [totalBits, Nat.add_zero] using htotal'
      have hmsg : s'.msgSlices = (encode fs).length := by rw [hframe]
      have hrest : s'.tf = rest := by rw [hframe]
      subst hr
      exact ⟨rfl, rfl, rfl, rfl, rfl, rfl, hbits, hmsg, hrest, rfl, hin⟩
  exact hrun' _ rfl

/-- A history message of core 5 with a timestamp, in 15 slices. -/
theorem readNextTraceMsg_encode_indirectHistory :
    let c : WireChoices := ⟨fun k => [7, 36, 12].getD k 0, 24, 0⟩
    let body : MessageBody := .indirectHistory 1 100 0x4c8f3e02 0x5a7
    let file := encode (messageFields 3 c 5 body (some 0x12345))
    ((SliceFileParser.init 3 (file ++ [0xff])).readNextTraceMsg {} NexusMessage.init).Returns 5 body
      (some 0x12345) file.length [0xff] :=
  (readNextTraceMsg_encode_iff (SliceFileParser.init 3 _) {} NexusMessage.init
    ⟨fun k => [7, 36, 12].getD k 0, 24, 0⟩ 5 (.indirectHistory 1 100 0x4c8f3e02 0x5a7)
    (some 0x12345) [0xff] (by decide) ⟨by decide, by decide⟩ (by decide)
    (by rw [length_encode]; decide) rfl rfl rfl rfl rfl).mpr (by decide)

/-- A branch message of core 16 is counted behind the last core. -/
theorem not_returns_core16 :
    encode (messageFields 5 ⟨fun _ => 1, 0, 0⟩ 16 (.directBranch 0) none) = [0x0c, 0x43] ∧
      ¬ ((SliceFileParser.init 5 [0x0c, 0x43]).readNextTraceMsg {} NexusMessage.init).Returns 16
        (.directBranch 0) none 2 [] := by
  have hoverrun : ((SliceFileParser.init 5 [0x0c, 0x43]).readNextTraceMsg {}
      NexusMessage.init).analytics.overrun = true := by decide +kernel
  refine ⟨by decide, fun h => ?_⟩
  have hinside := h.inside
  rw [hoverrun] at hinside
  cases hinside

end TraceDecoder
