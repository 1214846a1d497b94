import TraceDecoder.StreamBuilder

/-!
# Messages survive the stream

A `NexusStream` that is fed what `addDataAcquisitionMessage` has built delivers the messages it was
called with.
-/

namespace TraceDecoder

/-- The arguments of a call of `addDataAcquisitionMessage`. -/
structure DataAcquisitionWrite (srcbits : ℕ) where
  src : ℕ
  itcIdx : ℕ
  size : ℕ
  data : ℕ
  haveTimestamp : Bool
  timestamp : BitVec 64
  src_lt : src < 2 ^ srcbits
  itcIdx_lt : itcIdx < 2 ^ 30
  size_eq : size = 1 ∨ size = 2 ∨ size = 4
  data_lt : data < 2 ^ (8 * size)

namespace DataAcquisitionWrite

variable {srcbits : ℕ}

def idtag (w : DataAcquisitionWrite srcbits) : ℕ :=
  w.itcIdx * 4 + if w.size = 2 then 2 else if w.size = 1 then 3 else 0

theorem idtag_lt (w : DataAcquisitionWrite srcbits) : w.idtag < 2 ^ 32 := by
  have hidx := w.itcIdx_lt
  rw [idtag]
  split_ifs <;> omega

def message (w : DataAcquisitionWrite srcbits) : NexusDataAcquisitionMessage where
  haveTimestamp := w.haveTimestamp
  timestamp := if w.haveTimestamp then w.timestamp else 0
  haveSrc := srcbits ≠ 0
  src := BitVec.ofNat 32 w.src
  tcode := 0x7
  idtag := BitVec.ofNat 32 w.idtag
  dqdata := BitVec.ofNat 32 w.data

def shownTime (w : DataAcquisitionWrite srcbits) : Option ℕ :=
  if w.haveTimestamp then some w.timestamp.toNat else none

end DataAcquisitionWrite

namespace SwtMessageStreamBuilder

variable {srcbits : ℕ}

def write (sb : SwtMessageStreamBuilder) (w : DataAcquisitionWrite srcbits) :
    SwtMessageStreamBuilder :=
  sb.addDataAcquisitionMessage srcbits (BitVec.ofNat 32 w.src) (BitVec.ofNat 32 w.itcIdx) w.size
    (BitVec.ofNat 32 w.data) w.haveTimestamp w.timestamp

/-- The source is passed as an `int` and sign-extended; its low bits are what is written. -/
theorem toNat_src (hsrc : srcbits ≤ 32) {src : ℕ} (hlt : src < 2 ^ srcbits) :
    ((BitVec.ofNat 32 src).signExtend 64).toNat % 2 ^ srcbits = src := by
  have hlow : ((BitVec.ofNat 32 src).signExtend 64).toNat % 2 ^ 32 =
      (BitVec.ofNat 32 src).toNat := by
    rw [← BitVec.toNat_setWidth]
    congr 1
    apply BitVec.eq_of_getLsbD_eq
    intro i hi
    rw [BitVec.getLsbD_setWidth, BitVec.getLsbD_signExtend]
    simp [hi, show i < 64 by omega]
  have hword : src < 2 ^ 32 := hlt.trans_le (Nat.pow_le_pow_right (by decide) hsrc)
  rw [← Nat.mod_mod_of_dvd _ (pow_dvd_pow 2 hsrc), hlow, BitVec.toNat_ofNat, Nat.mod_eq_of_lt hword,
    Nat.mod_eq_of_lt hlt]

theorem toNat_tag (w : DataAcquisitionWrite srcbits) :
    let tag := BitVec.ofNat 32 w.itcIdx * 4
    (BitVec.setWidth 64 (if w.size = 2 then tag + 2 else if w.size = 1 then tag + 3
      else tag)).toNat = w.idtag := by
  intro tag
  have hidx := w.itcIdx_lt
  have htag : tag.toNat = w.itcIdx * 4 := by
    rw [BitVec.toNat_mul, BitVec.toNat_ofNat]
    change w.itcIdx % 2 ^ 32 * 4 % 2 ^ 32 = _
    omega
  rw [DataAcquisitionWrite.idtag, BitVec.toNat_setWidth]
  split_ifs
  · rw [BitVec.toNat_add, htag]
    change (w.itcIdx * 4 + 2) % 2 ^ 32 % 2 ^ 64 = _
    omega
  · rw [BitVec.toNat_add, htag]
    change (w.itcIdx * 4 + 3) % 2 ^ 32 % 2 ^ 64 = _
    omega
  · rw [htag]
    omega

theorem write_slices (hsrc : srcbits ≤ 32) (sb : SwtMessageStreamBuilder)
    (w : DataAcquisitionWrite srcbits) :
    ∃ msg, (sb.write w).slices = sb.slices ++ msg ∧ msg.length ≤ 64 ∧
      DataAcquisitionSlices msg (w.src + 2 ^ srcbits * w.idtag) w.data w.shownTime := by
  have htag := toNat_tag w
  have hsize := w.size_eq
  have hword : w.data < 2 ^ 32 := w.data_lt.trans_le (Nat.pow_le_pow_right (by decide) (by omega))
  have hdata : ((BitVec.ofNat 32 w.data).setWidth 64).toNat = w.data := by
    rw [BitVec.toNat_setWidth, BitVec.toNat_ofNat, Nat.mod_eq_of_lt hword, Nat.mod_eq_of_lt
      (hword.trans (by decide))]
  have hdata_lt : ((BitVec.ofNat 32 w.data).setWidth 64).toNat < 2 ^ (w.size * 8) := by
    rw [hdata, mul_comm]
    exact w.data_lt
  have hsource :=
    ((writing_beginMessage sb).append 0x7 6).append ((BitVec.ofNat 32 w.src).signExtend 64) srcbits
  rw [toNat_src hsrc w.src_lt] at hsource
  set tag := BitVec.setWidth 64 (if w.size = 2 then BitVec.ofNat 32 w.itcIdx * 4 + 2
      else if w.size = 1 then
    BitVec.ofNat 32 w.itcIdx * 4 + 3 else BitVec.ofNat 32 w.itcIdx * 4)
  obtain ⟨f, hslices, hf, hvalue, hlt, hle, htagged⟩ :=
    hsource.varField tag 32 (by rw [htag]; exact w.idtag_lt) (.inl (by decide)) false
  obtain ⟨g, hslices', hg, hvalue', -, hle', hwritten⟩ :=
    htagged.varField ((BitVec.ofNat 32 w.data).setWidth 64) (w.size * 8) hdata_lt (.inl (by omega))
      (!w.haveTimestamp)
  have hvalue₀ : fieldValue f = 7 + 2 ^ 6 * (w.src + 2 ^ srcbits * w.idtag) := by
    rw [hvalue, htag, zero_add, zero_add, pow_add, mul_add, mul_assoc, ← add_assoc]
    rfl
  obtain ⟨f₀, rfl, hf₀, htagged₀⟩ := fieldSlices_tag hf (by omega) hvalue₀
  rw [hdata, zero_add, pow_zero, one_mul] at hvalue'
  set sb₁ :=
    (((sb.beginMessage.append 0x7 6).append ((BitVec.ofNat 32 w.src).signExtend 64)
      srcbits).appendVarField tag 32
    false).appendVarField ((BitVec.ofNat 32 w.data).setWidth 64) (w.size * 8) (!w.haveTimestamp)
  have hbuilt : sb.write w = if w.haveTimestamp then sb₁.appendVarField w.timestamp 64 true
    else sb₁ := rfl
  rw [List.length_cons] at hle
  rw [hbuilt, DataAcquisitionWrite.shownTime]
  cases htime : w.haveTimestamp with
  | false =>
    rw [htime] at hg
    have hmsg := DataAcquisitionSlices.plain hf₀ hg
    rw [htagged₀, hvalue'] at hmsg
    refine ⟨_, ?_, ?_, hmsg⟩
    · rw [if_neg (by decide), hslices', List.append_assoc]
      rfl
    · rw [List.length_cons, List.length_append]
      omega
  | true =>
    rw [htime] at hg
    obtain ⟨t, hslices'', ht, hvalue'', -, hle'', -⟩ :=
      hwritten.varField w.timestamp 64 w.timestamp.isLt (.inr rfl) true
    have hmsg := DataAcquisitionSlices.timestamped hf₀ hg ht
    rw [zero_add, pow_zero, one_mul] at hvalue''
    rw [htagged₀, hvalue', hvalue''] at hmsg
    refine ⟨_, ?_, ?_, hmsg⟩
    · rw [if_pos rfl, hslices'', List.append_assoc, List.append_assoc]
      rfl
    · rw [List.length_cons, List.length_append, List.length_append]
      omega

/-- What a call adds is delivered as the message it was called with. -/
theorem feed_write (hsrc : srcbits ≤ 32) (sb : SwtMessageStreamBuilder)
    (w : DataAcquisitionWrite srcbits) :
    ∃ msg, (sb.write w).slices = sb.slices ++ msg ∧ ∀ ns : NexusStream, ns.Between srcbits →
      ∃ ns', ns.feed msg = ([w.message], ns') ∧ ns'.Between srcbits := by
  obtain ⟨msg, hslices, hlen, hmsg⟩ := write_slices hsrc sb w
  have hsource : (w.src + 2 ^ srcbits * w.idtag) % 2 ^ srcbits = w.src := by
    rw [Nat.add_mul_mod_self_left, Nat.mod_eq_of_lt w.src_lt]
  have htag : (w.src + 2 ^ srcbits * w.idtag) / 2 ^ srcbits = w.idtag := by
    rw [Nat.add_mul_div_left _ _ (Nat.two_pow_pos _), Nat.div_eq_of_lt w.src_lt, zero_add]
  have hmessage : NexusDataAcquisitionMessage.ofFields srcbits (w.src + 2 ^ srcbits * w.idtag)
      w.data w.shownTime = w.message := by
    rw [NexusDataAcquisitionMessage.ofFields, DataAcquisitionWrite.message, hsource, htag,
      DataAcquisitionWrite.shownTime]
    cases w.haveTimestamp with
    | false => rfl
    | true => simp
  refine ⟨msg, hslices, fun ns hns => ?_⟩
  rw [← hmessage]
  exact hns.feed_dataAcquisition (NexusMessageReassembler.source_lt (hsrc.trans (by decide)) _) hmsg
    (hlen.trans (by decide)) (by rw [htag]; exact w.idtag_lt.trans (by decide))

theorem feed_writes (hsrc : srcbits ≤ 32) (sb : SwtMessageStreamBuilder)
    (ws : List (DataAcquisitionWrite srcbits)) :
    ∃ bytes, (ws.foldl write sb).slices = sb.slices ++ bytes ∧ ∀ ns : NexusStream,
      ns.Between srcbits →
      ∃ ns', ns.feed bytes = (ws.map (·.message), ns') ∧ ns'.Between srcbits := by
  induction ws generalizing sb with
  | nil => exact ⟨[], (List.append_nil _).symm, fun ns hns => ⟨ns, rfl, hns⟩⟩
  | cons w ws ih =>
    obtain ⟨msg, hmsg, hfeed⟩ := feed_write hsrc sb w
    obtain ⟨bytes, hbytes, hrest⟩ := ih (sb.write w)
    refine ⟨msg ++ bytes, ?_, fun ns hns => ?_⟩
    · rw [List.foldl_cons, hbytes, hmsg, List.append_assoc]
    · obtain ⟨ns₁, hfeed₁, hns₁⟩ := hfeed ns hns
      obtain ⟨ns₂, hfeed₂, hns₂⟩ := hrest ns₁ hns₁
      exact ⟨ns₂, NexusStream.feed_append hfeed₁ hfeed₂, hns₂⟩

end SwtMessageStreamBuilder

/-- **Round trip of the serial wire trace.** The messages that are built
are delivered one for one. -/
theorem NexusStream.feed_builder {srcbits : ℕ} (hsrc : srcbits ≤ 32) {sb : SwtMessageStreamBuilder}
    (hsb : sb.slices = []) (ws : List (DataAcquisitionWrite srcbits)) :
    ((NexusStream.init srcbits).feed (ws.foldl SwtMessageStreamBuilder.write sb).slices).1 = ws.map
    (·.message) := by
  obtain ⟨bytes, hbytes, hfeed⟩ := SwtMessageStreamBuilder.feed_writes hsrc sb ws
  obtain ⟨ns, hfeed, -⟩ := hfeed _ (NexusStream.between_init srcbits)
  rw [hbytes, hsb, List.nil_append, hfeed]

/-- A half-word of channel 2 with a timestamp of 64 bits, then a zero byte of channel 0. -/
theorem NexusStream.feed_builder_two :
    let ws : List (DataAcquisitionWrite 3) :=
      [⟨5, 2, 2, 0xbeef, true, 0x8000000000000001, by decide, by decide, .inr (.inl rfl), by
        decide⟩, ⟨0, 0, 1, 0, false, 0, by decide, by decide, .inl rfl, by decide⟩]
    ((NexusStream.init 3).feed (ws.foldl SwtMessageStreamBuilder.write ⟨0, 0, []⟩).slices).1 =
      [⟨true, 0x8000000000000001, true, 5, 7, 10, 0xbeef⟩, ⟨false, 0, true, 0, 7, 3, 0⟩] :=
  feed_builder (by decide) rfl _

end TraceDecoder
