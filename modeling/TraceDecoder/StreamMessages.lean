import TraceDecoder.StreamFields

/-!
# The messages of a stream

Between two messages the unwrapper is empty. A data acquisition message is delivered at its last
slice.
-/

namespace TraceDecoder

/-- The data acquisition message of the given field values; the source and the tag share a field. -/
def NexusDataAcquisitionMessage.ofFields (srcbits tagged dqdata : ℕ) (timestamp : Option ℕ) :
    NexusDataAcquisitionMessage where
  haveTimestamp := timestamp.isSome
  timestamp := BitVec.ofNat 64 (timestamp.getD 0)
  haveSrc := srcbits ≠ 0
  src := BitVec.ofNat 32 (tagged % 2 ^ srcbits)
  tcode := 0x7
  idtag := BitVec.ofNat 32 (tagged / 2 ^ srcbits)
  dqdata := BitVec.ofNat 32 dqdata

structure Acquired where
  src : ℕ
  tag : ℕ
  data : ℕ
  timestamp : Option ℕ
  deriving DecidableEq, Repr

def NexusDataAcquisitionMessage.acquired (m : NexusDataAcquisitionMessage) : Acquired :=
  ⟨m.src.toNat, m.idtag.toNat, m.dqdata.toNat, if m.haveTimestamp then some m.timestamp.toNat
    else none⟩

/-! ### The fields of a data acquisition message -/

namespace NexusMessageReassembler

open NexusDataAcquisitionMessage

variable {data : Buffer} {srcbits tagged dqdata v numbits : ℕ}

theorem source_lt (hsrc : srcbits ≤ 64) (tagged : ℕ) : tagged % 2 ^ srcbits < 2 ^ 64 :=
  (Nat.mod_lt _ (Nat.two_pow_pos _)).trans_le (Nat.pow_le_pow_right (by decide) hsrc)

def accepting (srcbits fieldcount : ℕ) (dqm : NexusDataAcquisitionMessage) :
    NexusMessageReassembler :=
  ⟨srcbits, true, fieldcount, false, false, dqm⟩

theorem messageData_tag (hdata : Holds data tagged) (hnumbits : tagged < 2 ^ numbits)
    (hsrc : tagged % 2 ^ srcbits < 2 ^ 64) (htag : tagged / 2 ^ srcbits < 2 ^ 64) :
    (accepting srcbits 0 .cleared).messageData numbits data false =
      accepting srcbits 0 (ofFields srcbits tagged 0 none) := by
  have hlow : tagged / 2 ^ srcbits < 2 ^ (numbits - srcbits) := by
    rw [Nat.div_lt_iff_lt_mul (Nat.two_pow_pos _), ← pow_add]
    exact hnumbits.trans_le (Nat.pow_le_pow_right (by decide) (by omega))
  have hidtag : (buf_to_u64 data srcbits (numbits - srcbits)).setWidth 32 =
      BitVec.ofNat 32 (tagged / 2 ^ srcbits) := by
    rw [hdata.buf_to_u64 srcbits _ (.inr htag), Nat.mod_eq_of_lt hlow, BitVec.setWidth_ofNat_of_le
      (by decide)]
  have hword : (buf_to_u64 data 0 srcbits).setWidth 32 =
      BitVec.ofNat 32 (tagged % 2 ^ srcbits) := by
    rw [hdata.buf_to_u64_mod 0 _ (by rwa [pow_zero, Nat.div_one]), pow_zero, Nat.div_one,
      BitVec.setWidth_ofNat_of_le (by decide)]
  by_cases hzero : srcbits = 0
  · subst hzero
    simp only [messageData, accepting, if_true, if_false, Bool.false_eq_true, ne_eq,
      not_true_eq_false, hidtag]
    rw [ofFields, pow_zero, Nat.mod_one]
    rfl
  · simp only [messageData, accepting, if_true, if_false, Bool.false_eq_true, ne_eq, hzero,
      not_false_eq_true, hidtag, hword]
    rw [ofFields, decide_eq_true hzero]
    rfl

theorem messageData_data (hdata : Holds data dqdata) (hnumbits : dqdata < 2 ^ numbits) :
    (accepting srcbits 1 (ofFields srcbits tagged 0 none)).messageData numbits data false =
      accepting srcbits 1 (ofFields srcbits tagged dqdata none) := by
  have hword : (buf_to_u64 data 0 (min numbits 32)).setWidth 32 = BitVec.ofNat 32 dqdata := by
    rw [hdata.buf_to_u64 0 _ (.inl (by omega)), pow_zero, Nat.div_one, BitVec.setWidth_ofNat_of_le
      (by decide)]
    apply BitVec.eq_of_toNat_eq
    rw [BitVec.toNat_ofNat, BitVec.toNat_ofNat]
    rcases Nat.le_total numbits 32 with h | h
    · rw [Nat.min_eq_left h, Nat.mod_eq_of_lt hnumbits]
    · rw [Nat.min_eq_right h, Nat.mod_mod]
  simp only [messageData, accepting, if_true, if_false, Bool.false_eq_true, hword]
  rfl

theorem messageData_timestamp (hdata : Holds data v) (hnumbits : v < 2 ^ numbits) :
    (accepting srcbits 2 (ofFields srcbits tagged dqdata none)).messageData numbits data false =
      accepting srcbits 2 (ofFields srcbits tagged dqdata (some v)) := by
  have hword : buf_to_u64 data 0 (min numbits 64) = BitVec.ofNat 64 v := by
    rw [hdata.buf_to_u64 0 _ (.inl (by omega)), pow_zero, Nat.div_one]
    apply BitVec.eq_of_toNat_eq
    rw [BitVec.toNat_ofNat, BitVec.toNat_ofNat]
    rcases Nat.le_total numbits 64 with h | h
    · rw [Nat.min_eq_left h, Nat.mod_eq_of_lt hnumbits]
    · rw [Nat.min_eq_right h, Nat.mod_mod]
  simp only [messageData, accepting, if_true, if_false, Bool.false_eq_true, hword]
  rfl

theorem getMessage_endMessage (fieldcount : ℕ) (hcount : 1 ≤ fieldcount ∧ fieldcount ≤ 2)
    (dqm : NexusDataAcquisitionMessage) :
    (accepting srcbits fieldcount dqm).endField.endMessage.getMessage =
      (some dqm, ⟨srcbits, false, fieldcount + 1, false, false, dqm⟩) := by
  have hfields : 2 ≤ fieldcount + 1 ∧ fieldcount + 1 ≤ 3 ∧ (false = false) :=
    ⟨by omega, by omega, rfl⟩
  simp only [accepting, endField, endMessage, if_true, hfields, and_self, decide_true, Bool.or_true,
    getMessage]

end NexusMessageReassembler

/-! ### Messages -/

def dataAcquisitionSlice : Byte := 0x1c

/-- The slices of a data acquisition message, with the values of its fields. -/
inductive DataAcquisitionSlices : List Byte → ℕ → ℕ → Option ℕ → Prop
  | plain {f₀ f₁ : List Byte} (hf₀ : FieldSlices MSEO_VAR_END f₀) (hf₁ : FieldSlices MSEO_END f₁) :
    DataAcquisitionSlices (dataAcquisitionSlice :: (f₀ ++ f₁)) (fieldValue f₀) (fieldValue f₁) none
  | timestamped {f₀ f₁ f₂ : List Byte} (hf₀ : FieldSlices MSEO_VAR_END f₀)
    (hf₁ : FieldSlices MSEO_VAR_END f₁) (hf₂ : FieldSlices MSEO_END f₂) :
    DataAcquisitionSlices (dataAcquisitionSlice :: (f₀ ++ (f₁ ++ f₂))) (fieldValue f₀)
      (fieldValue f₁) (fieldValue f₂)

/-- A data acquisition message as it is sent: the slices of its fields. -/
structure AcquisitionSlices where
  tagged : List Byte
  dqdata : List Byte
  timestamp : Option (List Byte)

def FieldHasRoom (f : List Byte) : Prop := 6 * f.length ≤ 8 * MAX_DATA

instance (f : List Byte) : Decidable (FieldHasRoom f) := inferInstanceAs (Decidable (_ ≤ _))

theorem length_le_of_room {f : List Byte} (h : FieldHasRoom f) : f.length ≤ 5461 := by
  rw [FieldHasRoom, MAX_DATA] at h
  omega

namespace AcquisitionSlices

def bytes (m : AcquisitionSlices) : List Byte :=
  dataAcquisitionSlice :: (m.tagged ++ (m.dqdata ++ m.timestamp.getD []))

structure WellFormed (m : AcquisitionSlices) : Prop where
  tagged : FieldSlices MSEO_VAR_END m.tagged
  dqdata : FieldSlices (if m.timestamp = none then MSEO_END else MSEO_VAR_END) m.dqdata
  timestamp : ∀ f ∈ m.timestamp, FieldSlices MSEO_END f

structure HasRoom (m : AcquisitionSlices) : Prop where
  tagged : FieldHasRoom m.tagged
  dqdata : FieldHasRoom m.dqdata
  timestamp : ∀ f ∈ m.timestamp, FieldHasRoom f

end AcquisitionSlices

theorem DataAcquisitionSlices.fields {msg : List Byte} {tagged dqdata : ℕ} {timestamp : Option ℕ}
    (h : DataAcquisitionSlices msg tagged dqdata timestamp) :
    ∃ m : AcquisitionSlices, m.WellFormed ∧ m.bytes = msg ∧
      fieldValue m.tagged = tagged ∧ fieldValue m.dqdata = dqdata ∧ m.timestamp.map fieldValue =
        timestamp := by
  cases h with
  | @plain f₀ f₁ hf₀ hf₁ =>
    refine ⟨⟨f₀, f₁, none⟩, ⟨hf₀, hf₁, fun f hf => nomatch hf⟩, ?_, rfl, rfl, rfl⟩
    rw [AcquisitionSlices.bytes, Option.getD_none, List.append_nil]
  | @timestamped f₀ f₁ f₂ hf₀ hf₁ hf₂ =>
    refine ⟨⟨f₀, f₁, some f₂⟩, ⟨hf₀, hf₁, fun f hf => ?_⟩, rfl, rfl, rfl, rfl⟩
    rwa [← Option.some.inj hf]

namespace NexusStream

open NexusMessageReassembler

variable {ns : NexusStream} {srcbits : ℕ} {f₀ : List Byte}

structure Between (srcbits : ℕ) (ns : NexusStream) : Prop where
  unwrapper : ns.unwrapper = .init
  srcbits : ns.reassembler.srcbits = srcbits
  acceptingMessage : ns.reassembler.acceptingMessage = false
  messageReady : ns.reassembler.messageReady = false

theorem between_init (srcbits : ℕ) : Between srcbits (init srcbits) := ⟨rfl, rfl, rfl, rfl⟩

theorem Between.start (h : ns.Between srcbits) {first : Byte}
    (hmark : first &&& 0x3 = MSEO_NORMAL) :
    ∃ ns', ns.appendByteAndCheckForMessage first = (none, ns') ∧ ns'.Collecting [] ∧
      ns'.reassembler = ⟨srcbits, first >>> 2 = 7, 0, false, false, .cleared⟩ := by
  have hzero : first &&& 0x3 = 0 := hmark
  have happend : ns.appendByte first = ⟨ns.reassembler.startMessage (first >>> 2),
      { ns.unwrapper with inMessage := true }⟩ := by
    rw [appendByte]
    simp only [h.unwrapper, hzero]
    rfl
  refine ⟨⟨ns.reassembler.startMessage (first >>> 2), { ns.unwrapper with inMessage := true }⟩, ?_,
    ?_, ?_⟩
  · rw [appendByteAndCheckForMessage, happend]
    rfl
  · rw [h.unwrapper]
    exact ⟨rfl, holds_zero, rfl, rfl, rfl⟩
  · rw [startMessage, h.srcbits]

/-- The message code and the field of the source and the tag. -/
theorem Between.feed_tag (h : ns.Between srcbits) (hsrc : fieldValue f₀ % 2 ^ srcbits < 2 ^ 64)
    (hf₀ : FieldSlices MSEO_VAR_END f₀)
    (hlen : f₀.length ≤ 5461) (htag : fieldValue f₀ / 2 ^ srcbits < 2 ^ 64) :
    ∃ ns', ns.feed (dataAcquisitionSlice :: f₀) = ([], ns') ∧ ns'.Collecting [] ∧
      ns'.reassembler = accepting srcbits 1 (.ofFields srcbits (fieldValue f₀) 0 none) := by
  obtain ⟨ns₁, happend, hcollect, hr₁⟩ :=
    h.start (show dataAcquisitionSlice &&& 0x3 = MSEO_NORMAL by decide)
  obtain ⟨ns', data, hfeed, hcollect', hdata, hr⟩ := feed_field hcollect hf₀ (by simpa using hlen)
  have hstart : ns₁.reassembler = accepting srcbits 0 .cleared := hr₁
  rw [List.nil_append] at hdata hr
  rw [hstart, messageData_tag hdata (fieldValue_lt f₀) hsrc htag] at hr
  exact ⟨ns', feed_cons happend hfeed, hcollect', hr⟩

theorem Between.feed_acquisition {m : AcquisitionSlices} (h : ns.Between srcbits)
    (hm : m.WellFormed) (hroom : m.HasRoom)
    (hsrc : fieldValue m.tagged % 2 ^ srcbits < 2 ^ 64)
    (htag : fieldValue m.tagged / 2 ^ srcbits < 2 ^ 64) :
    ∃ ns', ns.feed m.bytes =
      ([.ofFields srcbits (fieldValue m.tagged) (fieldValue m.dqdata) (m.timestamp.map fieldValue)],
      ns') ∧ ns'.Between srcbits := by
  obtain ⟨f₀, f₁, time⟩ := m
  obtain ⟨hf₀, hf₁, hf₂⟩ := hm
  obtain ⟨hroom₀, hroom₁, hroom₂⟩ := hroom
  obtain ⟨ns₁, hfeed₀, hcollect, hr⟩ := h.feed_tag hsrc hf₀ (length_le_of_room hroom₀) htag
  cases time with
  | none =>
    obtain ⟨data, hdata, hfeed₁⟩ :=
      feed_lastField hcollect hf₁ (by simpa using length_le_of_room hroom₁)
    rw [List.nil_append] at hdata hfeed₁
    rw [hr, messageData_data hdata (fieldValue_lt f₁)] at hfeed₁
    simp only [getMessage_endMessage 1 (by decide)] at hfeed₁
    have hbytes : AcquisitionSlices.bytes ⟨f₀, f₁, none⟩ = dataAcquisitionSlice :: f₀ ++ f₁ := by
      rw [AcquisitionSlices.bytes, Option.getD_none, List.append_nil]
      rfl
    rw [hbytes]
    exact ⟨_, feed_append hfeed₀ hfeed₁, ⟨rfl, rfl, rfl, rfl⟩⟩
  | some f₂ =>
    have hf₂ := hf₂ f₂ rfl
    have hroom₂ := hroom₂ f₂ rfl
    obtain ⟨ns₂, data₁, hfeed₁, hcollect₁, hdata₁, hr₁⟩ :=
      feed_field hcollect hf₁ (by simpa using length_le_of_room hroom₁)
    rw [List.nil_append] at hdata₁ hr₁
    rw [hr, messageData_data hdata₁ (fieldValue_lt f₁)] at hr₁
    have hnext : ns₂.reassembler = accepting srcbits 2 (.ofFields srcbits (fieldValue f₀)
      (fieldValue f₁) none) := hr₁
    obtain ⟨data₂, hdata₂, hfeed₂⟩ :=
      feed_lastField hcollect₁ hf₂ (by simpa using length_le_of_room hroom₂)
    rw [List.nil_append] at hdata₂ hfeed₂
    rw [hnext, messageData_timestamp hdata₂ (fieldValue_lt f₂)] at hfeed₂
    simp only [getMessage_endMessage 2 (by decide)] at hfeed₂
    exact ⟨_, feed_append hfeed₀ (feed_append hfeed₁ hfeed₂), ⟨rfl, rfl, rfl, rfl⟩⟩

theorem Between.feed_dataAcquisition {msg : List Byte} {tagged dqdata : ℕ} {timestamp : Option ℕ}
    (h : ns.Between srcbits)
    (hsrc : tagged % 2 ^ srcbits < 2 ^ 64)
    (hmsg : DataAcquisitionSlices msg tagged dqdata timestamp) (hlen : msg.length ≤ 5461)
    (htag : tagged / 2 ^ srcbits < 2 ^ 64) :
    ∃ ns', ns.feed msg = ([.ofFields srcbits tagged dqdata timestamp], ns') ∧
      ns'.Between srcbits := by
  obtain ⟨m, hm, rfl, rfl, rfl, rfl⟩ := hmsg.fields
  refine h.feed_acquisition hm ?_ hsrc htag
  have hlen : (dataAcquisitionSlice :: (m.tagged ++ (m.dqdata ++ m.timestamp.getD []))).length ≤
    5461 := hlen
  rw [List.length_cons, List.length_append, List.length_append] at hlen
  refine ⟨?_, ?_, fun f hf => ?_⟩
  · rw [FieldHasRoom, MAX_DATA]
    omega
  · rw [FieldHasRoom, MAX_DATA]
    omega
  · obtain rfl : m.timestamp.getD [] = f := by rw [show m.timestamp = some f from hf]; rfl
    rw [FieldHasRoom, MAX_DATA]
    omega

end NexusStream

end TraceDecoder
