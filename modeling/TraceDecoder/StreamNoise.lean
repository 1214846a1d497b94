import TraceDecoder.StreamIdle

/-!
# Noise in the stream

Whatever the stream has been fed, it is inside a message or has nothing begun. A byte with the
end-of-message bit leaves nothing begun in either case, so that the messages behind it are delivered
as if there had been nothing before. The data bits stay inside the buffer of the unwrapper.
-/

namespace TraceDecoder

namespace NexusStream

open NexusMessageReassembler

variable {ns : NexusStream} {srcbits : ℕ}

/-! ### The states of a stream -/

def Settled (srcbits : ℕ) (ns : NexusStream) : Prop :=
  ns.Between srcbits ∨ ∃ accept, ns.Inside srcbits accept

theorem Settled.append (h : ns.Settled srcbits) (b : Byte) :
    (ns.appendByteAndCheckForMessage b).2.Settled srcbits := by
  rcases h with hbetween | ⟨accept, hinside⟩
  · by_cases hmark : b &&& 0x3 = MSEO_NORMAL
    · obtain ⟨ns', happend, hinside⟩ := hbetween.enter hmark
      rw [happend]
      exact .inr ⟨_, hinside⟩
    · rw [hbetween.skip hmark]
      exact .inl hbetween
  · by_cases hmark : b &&& 0x2 = 0
    · obtain ⟨ns', happend, hinside'⟩ := hinside.slice hmark
      rw [happend]
      exact .inr ⟨accept, hinside'⟩
    · obtain ⟨got, ns', happend, hbetween, -⟩ := hinside.last hmark
      rw [happend]
      exact .inl hbetween

theorem Settled.feed (h : ns.Settled srcbits) (bytes : List Byte) :
    (ns.feed bytes).2.Settled srcbits := by
  induction bytes generalizing ns with
  | nil => exact h
  | cons b bytes ih => exact ih (h.append b)

/-- A byte with the end-of-message bit ends what there is. -/
theorem Settled.last (h : ns.Settled srcbits) {b : Byte} (hmark : b &&& 0x2 ≠ 0) :
    (ns.appendByteAndCheckForMessage b).2.Between srcbits := by
  rcases h with hbetween | ⟨accept, hinside⟩
  · have hnormal : b &&& 0x3 ≠ MSEO_NORMAL := by
      revert b
      decide
    rw [hbetween.skip hnormal]
    exact hbetween
  · obtain ⟨got, ns', happend, hbetween, -⟩ := hinside.last hmark
    rw [happend]
    exact hbetween

theorem feed_concat (ns : NexusStream) (bytes : List Byte) (b : Byte) :
    (ns.feed (bytes ++ [b])).2 = ((ns.feed bytes).2.appendByteAndCheckForMessage b).2 := by
  induction bytes generalizing ns with
  | nil => rfl
  | cons c bytes ih => exact ih (ns.appendByteAndCheckForMessage c).2

/-! ### Fields without room -/

theorem messageData_keeps_overflowed {r : NexusMessageReassembler} {numbits : ℕ} {data : Buffer}
    {overflowed : Bool}
    (haccept : r.acceptingMessage = true) (h : overflowed = true ∨ r.messageHasOverflowedField =
      true) :
    (r.messageData numbits data overflowed).messageHasOverflowedField = true := by
  unfold messageData
  rw [if_pos haccept]
  by_cases hover : overflowed = true
  · rw [if_pos hover]
  · have hkept := h.resolve_left hover
    rw [if_neg hover]
    split <;> exact hkept

/-- Inside a data acquisition message that will not be delivered: the
buffer is full, or has been. -/
structure Lost (ns : NexusStream) : Prop where
  inMessage : ns.unwrapper.inMessage = true
  acceptingMessage : ns.reassembler.acceptingMessage = true
  messageReady : ns.reassembler.messageReady = false
  lost : MAX_DATA * 8 - 6 ≤ ns.unwrapper.datanumbits ∨ ns.unwrapper.dataoverflowed = true ∨
    ns.reassembler.messageHasOverflowedField = true

theorem Lost.collect (h : ns.Lost) (mdo : Byte) :
    (ns.unwrapper.collect mdo).dataoverflowed = true ∨ ns.reassembler.messageHasOverflowedField =
      true := by
  unfold NexusSliceUnwrapper.collect
  split_ifs with hroom
  · exact h.lost.resolve_left (Nat.not_le.mpr hroom)
  · exact .inl rfl

theorem Lost.endField (h : ns.Lost) (mdo meso : Byte) :
    let u := ns.unwrapper.collect mdo
    let r := ns.reassembler.messageData u.datanumbits u.data u.dataoverflowed
    let r := if meso &&& 0x1 ≠ 0 then r.endField else r
    r.acceptingMessage = true ∧ r.messageReady = false ∧ r.messageHasOverflowedField = true := by
  intro u r r'
  have hover : r.messageHasOverflowedField = true :=
    messageData_keeps_overflowed h.acceptingMessage (h.collect mdo)
  obtain ⟨lost, dqm, hframe⟩ :=
    ns.reassembler.messageData_frame u.datanumbits u.data u.dataoverflowed
  have hr : r = { ns.reassembler with messageHasOverflowedField := lost, dqm := dqm } := hframe
  have haccept : r.acceptingMessage = true := by
    rw [hr]
    exact h.acceptingMessage
  have hready : r.messageReady = false := by
    rw [hr]
    exact h.messageReady
  have hr' : r' = if meso &&& 0x1 ≠ 0 then r.endField else r := rfl
  rw [hr']
  split_ifs <;> exact ⟨haccept, hready, hover⟩

theorem Lost.slice (h : ns.Lost) {b : Byte} (hmark : b &&& 0x2 = 0) :
    ∃ ns', ns.appendByteAndCheckForMessage b = (none, ns') ∧ ns'.Lost := by
  have hmark' : b &&& 0x3 &&& 0x2 = 0 := by rwa [BitVec.and_assoc]
  have hin : (ns.unwrapper.collect (b >>> 2)).inMessage = true := by
    rw [collect_inMessage, h.inMessage]
  by_cases hzero : b &&& 0x3 = 0
  · have happend : ns.appendByte b = ⟨ns.reassembler, ns.unwrapper.collect (b >>> 2)⟩ := by
      simp only [appendByte, h.inMessage, hzero, Bool.true_eq_false, false_and, if_false, if_true,
        ne_eq, not_true_eq_false]
    refine ⟨⟨ns.reassembler, ns.unwrapper.collect (b >>> 2)⟩, ?_,
      ⟨hin, h.acceptingMessage, h.messageReady, .inr (h.collect (b >>> 2))⟩⟩
    rw [appendByteAndCheckForMessage, happend]
    simp only [getMessage_none h.messageReady]
  · obtain ⟨haccept, hready, hover⟩ := h.endField (b >>> 2) (b &&& 0x3)
    set u := ns.unwrapper.collect (b >>> 2) with hu
    set r := if b &&& 0x3 &&& 0x1 ≠ 0 then (ns.reassembler.messageData u.datanumbits u.data
      u.dataoverflowed).endField else ns.reassembler.messageData u.datanumbits u.data
        u.dataoverflowed
    have happend : ns.appendByte b = ⟨r, u.emptyData⟩ := by
      simp only [appendByte, h.inMessage, ← hu, hzero, hmark', Bool.true_eq_false, false_and,
        if_false, if_true, ne_eq, not_true_eq_false, not_false_eq_true]
      rfl
    refine ⟨⟨r, u.emptyData⟩, ?_, ⟨hin, haccept, hready, .inr (.inr hover)⟩⟩
    rw [appendByteAndCheckForMessage, happend]
    simp only [getMessage_none hready]

theorem Lost.last (h : ns.Lost) {b : Byte} (hmark : b &&& 0x2 ≠ 0) :
    (ns.appendByteAndCheckForMessage b).1 = none := by
  have hmark' : b &&& 0x3 &&& 0x2 ≠ 0 := by rwa [BitVec.and_assoc]
  have hzero : b &&& 0x3 ≠ 0 := fun hzero => hmark' (by rw [hzero]; rfl)
  obtain ⟨haccept, hready, hover⟩ := h.endField (b >>> 2) (b &&& 0x3)
  set u := ns.unwrapper.collect (b >>> 2) with hu
  set r := if b &&& 0x3 &&& 0x1 ≠ 0 then (ns.reassembler.messageData u.datanumbits u.data
    u.dataoverflowed).endField else ns.reassembler.messageData u.datanumbits u.data u.dataoverflowed
  have happend : ns.appendByte b = ⟨r.endMessage, .init⟩ := by
    simp only [appendByte, h.inMessage, ← hu, hzero, hmark', Bool.true_eq_false, false_and,
      if_false, if_true, ne_eq, not_false_eq_true]
    rfl
  have hnone : r.endMessage.messageReady = false := by
    rw [endMessage, if_pos haccept]
    simp only [hready, hover, Bool.true_eq_false, and_false, decide_false, Bool.or_false]
  rw [appendByteAndCheckForMessage, happend]
  simp only [getMessage_none hnone]

/-- The rest of a message: only its last slice has the end-of-message bit. -/
structure Remainder (bs : List Byte) (last : Byte) : Prop where
  inside : ∀ b ∈ bs, b &&& 0x2 = 0
  last : last &&& 0x2 ≠ 0

theorem Lost.feed (h : ns.Lost) {bs : List Byte} {last : Byte} (hrest : Remainder bs last) :
    (ns.feed (bs ++ [last])).1 = [] := by
  obtain ⟨hbs, hlast⟩ := hrest
  induction bs generalizing ns with
  | nil =>
    have hnone := h.last hlast
    rcases happend : ns.appendByteAndCheckForMessage last with ⟨got, ns'⟩
    rw [happend] at hnone
    rw [List.nil_append, feed_cons happend (rfl : ns'.feed [] = ([], ns')), show got = none
      from hnone]
    rfl
  | cons b bs ih =>
    obtain ⟨hb, hbs⟩ := List.forall_mem_cons.mp hbs
    obtain ⟨ns', happend, hlost⟩ := h.slice hb
    have hrest := ih hlost hbs
    rcases hfeed : ns'.feed (bs ++ [last]) with ⟨ms, ns''⟩
    rw [hfeed] at hrest
    rw [List.cons_append, feed_cons happend hfeed, show ms = [] from hrest]
    rfl

/-- The slices of a field that are left behind some of them. -/
theorem FieldSlices_split {mark : Byte} {f : List Byte} (hf : FieldSlices mark f) {n : ℕ}
    (hn : n < f.length) :
    ∃ xs g, f = xs ++ g ∧ xs.length = n ∧ (∀ b ∈ xs, b &&& 0x3 = MSEO_NORMAL) ∧
      FieldSlices mark g := by
  induction hf generalizing n with
  | @last b hmark =>
    obtain rfl : n = 0 := Nat.lt_one_iff.mp hn
    exact ⟨[], [b], rfl, rfl, List.forall_mem_nil _, .last hmark⟩
  | @cons b f hmark hf ih =>
    cases n with
    | zero => exact ⟨[], b :: f, rfl, rfl, List.forall_mem_nil _, .cons hmark hf⟩
    | succ n =>
      obtain ⟨xs, g, rfl, hlen, hxs, hg⟩ := ih (Nat.lt_of_succ_lt_succ hn)
      exact ⟨b :: xs, g, rfl, congrArg Nat.succ hlen, List.forall_mem_cons.mpr ⟨hmark, hxs⟩, hg⟩

theorem remainder_last {f : List Byte} (hf : FieldSlices MSEO_END f) :
    ∃ bs last, f = bs ++ [last] ∧ Remainder bs last := by
  have hnormal : ∀ b : Byte, b &&& 0x3 = MSEO_NORMAL → b &&& 0x2 = 0 := by decide
  have hend : ∀ b : Byte, b &&& 0x3 = MSEO_END → b &&& 0x2 ≠ 0 := by decide
  induction hf with
  | @last b hmark => exact ⟨[], b, rfl, List.forall_mem_nil _, hend b hmark⟩
  | @cons b f hmark _ ih =>
    obtain ⟨bs, last, rfl, hbs, hlast⟩ := ih
    exact ⟨b :: bs, last, rfl, List.forall_mem_cons.mpr ⟨hnormal b hmark, hbs⟩, hlast⟩

theorem remainder_field {f rest : List Byte} (hf : FieldSlices MSEO_VAR_END f)
    (hrest : ∃ bs last, rest = bs ++ [last] ∧ Remainder bs last) :
    ∃ bs last, f ++ rest = bs ++ [last] ∧ Remainder bs last := by
  have hnormal : ∀ b : Byte, b &&& 0x3 = MSEO_NORMAL → b &&& 0x2 = 0 := by decide
  have hend : ∀ b : Byte, b &&& 0x3 = MSEO_VAR_END → b &&& 0x2 = 0 := by decide
  have hslices : ∀ b ∈ f, b &&& 0x2 = 0 := by
    induction hf with
    | @last b hmark => exact List.forall_mem_singleton.mpr (hend b hmark)
    | @cons b f hmark _ ih => exact List.forall_mem_cons.mpr ⟨hnormal b hmark, ih⟩
  obtain ⟨bs, last, rfl, hbs, hlast⟩ := hrest
  exact ⟨f ++ bs, last, (List.append_assoc _ _ _).symm, List.forall_mem_append.mpr ⟨hslices, hbs⟩,
    hlast⟩

structure AtField (ns : NexusStream) : Prop where
  collecting : ns.Collecting []
  accepting : ns.reassembler.acceptingMessage = true

theorem AtField.field (h : ns.AtField) {f : List Byte} (hf : FieldSlices MSEO_VAR_END f)
    (hroom : FieldHasRoom f) :
    ∃ ns', ns.feed f = ([], ns') ∧ ns'.AtField := by
  obtain ⟨ns', data, hfeed, hcollect, -, hr⟩ := feed_field h.collecting hf (length_le_of_room hroom)
  obtain ⟨lost, dqm, hframe⟩ := ns.reassembler.messageData_frame (6 * ([] ++ f).length) data false
  rw [hframe] at hr
  refine ⟨ns', hfeed, hcollect, ?_⟩
  rw [hr]
  exact h.accepting

theorem Collecting.feed_inside {g f : List Byte} (h : ns.Collecting g)
    (hf : ∀ b ∈ f, b &&& 0x3 = MSEO_NORMAL) (hroom : g.length + f.length ≤ 5461) :
    ∃ ns', ns.feed f = ([], ns') ∧ ns'.Collecting (g ++ f) ∧ ns'.reassembler = ns.reassembler := by
  induction f generalizing ns g with
  | nil => exact ⟨ns, rfl, (List.append_nil g).symm ▸ h, rfl⟩
  | cons b f ih =>
    obtain ⟨hb, hf⟩ := List.forall_mem_cons.mp hf
    rw [List.length_cons] at hroom
    obtain ⟨ns₁, happend, hcollect, hr⟩ := h.slice (by omega) hb
    obtain ⟨ns', hfeed, hcollect', hr'⟩ :=
      ih hcollect hf (by rw [List.length_append, List.length_singleton]; omega)
    rw [List.append_assoc, List.singleton_append] at hcollect'
    exact ⟨ns', feed_cons happend hfeed, hcollect', hr'.trans hr⟩

/-- A field without room: behind the slices that fill the buffer the message is
lost, whatever follows. -/
theorem AtField.feed_overlong (h : ns.AtField) {mark : Byte} {f rest : List Byte}
    (hf : FieldSlices mark f) (hroom : ¬ FieldHasRoom f)
    (hrest : ∀ g, FieldSlices mark g → ∃ bs last, g ++ rest = bs ++ [last] ∧ Remainder bs last) :
    (ns.feed (f ++ rest)).1 = [] := by
  rw [FieldHasRoom, MAX_DATA] at hroom
  obtain ⟨xs, g, rfl, hlen, hxs, hg⟩ := FieldSlices_split hf (show 5461 < f.length by omega)
  obtain ⟨ns', hfeed, hcollect, hr⟩ := h.collecting.feed_inside hxs (by rw [hlen]; decide)
  have hlost : ns'.Lost := by
    refine ⟨hcollect.inMessage, hr ▸ h.accepting, hcollect.messageReady, .inl ?_⟩
    rw [hcollect.datanumbits, List.nil_append, hlen, MAX_DATA]
    decide
  obtain ⟨bs, last, heq, hremainder⟩ := hrest g hg
  rcases hmore : ns'.feed (bs ++ [last]) with ⟨ms, ns''⟩
  have hnone := hlost.feed hremainder
  rw [hmore] at hnone
  rw [List.append_assoc, heq, feed_append hfeed hmore]
  exact hnone

/-! ### The messages behind the noise -/

end NexusStream

/-- The values fit the members they are kept in: 32 bits, and 64 bits for the timestamp. -/
structure Acquired.Fits (a : Acquired) : Prop where
  src : a.src < 2 ^ 32
  tag : a.tag < 2 ^ 32
  data : a.data < 2 ^ 32
  timestamp : ∀ t ∈ a.timestamp, t < 2 ^ 64

theorem NexusDataAcquisitionMessage.acquired_fits (m : NexusDataAcquisitionMessage) :
    m.acquired.Fits where
  src := m.src.isLt
  tag := m.idtag.isLt
  data := m.dqdata.isLt
  timestamp := by
    intro t ht
    have ht : (if m.haveTimestamp = true then some m.timestamp.toNat else none) = some t := ht
    split_ifs at ht
    obtain rfl := Option.some.inj ht
    exact m.timestamp.isLt

namespace AcquisitionSlices

variable {m : AcquisitionSlices}

def acquired (srcbits : ℕ) (m : AcquisitionSlices) : Acquired where
  src := fieldValue m.tagged % 2 ^ srcbits
  tag := fieldValue m.tagged / 2 ^ srcbits
  data := fieldValue m.dqdata
  timestamp := m.timestamp.map fieldValue

theorem dqdata_last (hm : m.WellFormed) (htime : m.timestamp = none) :
    FieldSlices MSEO_END m.dqdata := by
  have hdata := hm.dqdata
  rwa [if_pos htime] at hdata

theorem dqdata_inside (hm : m.WellFormed) {f : List Byte} (htime : m.timestamp = some f) :
    FieldSlices MSEO_VAR_END m.dqdata := by
  have hdata := hm.dqdata
  rwa [if_neg (by rw [htime]; exact Option.some_ne_none f)] at hdata

open NexusStream in
/-- The fields behind that of the tag are the rest of the message. -/
theorem remainder_data (hm : m.WellFormed) :
    ∃ bs last, m.dqdata ++ m.timestamp.getD [] = bs ++ [last] ∧ Remainder bs last := by
  cases htime : m.timestamp with
  | none =>
    rw [Option.getD_none, List.append_nil]
    exact remainder_last (dqdata_last hm htime)
  | some f => exact remainder_field (dqdata_inside hm htime) (remainder_last (hm.timestamp f htime))

end AcquisitionSlices

/-- A message of a stream: a data acquisition message, or one with another code. -/
inductive StreamMessage
  | acquisition (m : AcquisitionSlices)
  | other (first : Byte) (middle : List Byte) (last : Byte)

namespace StreamMessage

def bytes : StreamMessage → List Byte
  | acquisition m => m.bytes
  | other first middle last => first :: (middle ++ [last])

def WellFormed : StreamMessage → Prop
  | acquisition m => m.WellFormed
  | other first middle last =>
    first &&& 0x3 = MSEO_NORMAL ∧ first >>> 2 ≠ 7 ∧ (∀ b ∈ middle, b &&& 0x2 = 0) ∧
      last &&& 0x3 = MSEO_END

def acquired (srcbits : ℕ) : StreamMessage → Option Acquired
  | acquisition m => some (m.acquired srcbits)
  | other .. => none

/-- The values of a data acquisition message fit, and the buffer has room for each of its fields. -/
def Fits (srcbits : ℕ) : StreamMessage → Prop
  | acquisition m => (m.acquired srcbits).Fits ∧ m.HasRoom
  | other .. => True

end StreamMessage

namespace NexusStream

variable {ns : NexusStream} {srcbits : ℕ}

theorem ofFields_acquired {m : AcquisitionSlices} (h : (m.acquired srcbits).Fits) :
    (NexusDataAcquisitionMessage.ofFields srcbits (fieldValue m.tagged) (fieldValue m.dqdata)
      (m.timestamp.map fieldValue)).acquired = m.acquired srcbits := by
  obtain ⟨hsrc, htag, hdata, htime⟩ := h
  rw [AcquisitionSlices.acquired] at hsrc htag hdata htime
  simp only [NexusDataAcquisitionMessage.acquired, NexusDataAcquisitionMessage.ofFields,
    AcquisitionSlices.acquired, BitVec.toNat_ofNat, Nat.mod_eq_of_lt hsrc, Nat.mod_eq_of_lt htag,
      Nat.mod_eq_of_lt hdata]
  cases hts : m.timestamp with
  | none => rfl
  | some f =>
    have hlt : fieldValue f < 2 ^ 64 := htime (fieldValue f) (by rw [hts]; rfl)
    simpa using hlt

/-- A data acquisition message with a field for which the buffer has no room is lost. -/
theorem Between.feed_overlong (h : ns.Between srcbits) {m : AcquisitionSlices} (hm : m.WellFormed)
    (hroom : ¬ m.HasRoom) : (ns.feed m.bytes).1 = [] := by
  obtain ⟨ns₀, happend, hcollect, hr⟩ :=
    h.start (show dataAcquisitionSlice &&& 0x3 = MSEO_NORMAL by decide)
  have hfield : ns₀.AtField := ⟨hcollect, by rw [hr]; rfl⟩
  have hrest : (ns₀.feed (m.tagged ++ (m.dqdata ++ m.timestamp.getD []))).1 = [] := by
    by_cases hroom₀ : FieldHasRoom m.tagged
    · obtain ⟨ns₁, hfeed₀, hfield₁⟩ := hfield.field hm.tagged hroom₀
      have hdata : (ns₁.feed (m.dqdata ++ m.timestamp.getD [])).1 = [] := by
        by_cases hroom₁ : FieldHasRoom m.dqdata
        · cases htime : m.timestamp with
          | none => exact absurd ⟨hroom₀, hroom₁, fun f hf => by rw [htime] at hf; cases hf⟩ hroom
          | some f =>
            have hroom₂ : ¬ FieldHasRoom f := fun hf => hroom ⟨hroom₀, hroom₁, fun g hg => by
              rw [htime] at hg
              rwa [← Option.some.inj hg]⟩
            obtain ⟨ns₂, hfeed₁, hfield₂⟩ :=
              hfield₁.field (AcquisitionSlices.dqdata_inside hm htime) hroom₁
            have hlost : (ns₂.feed (f ++ [])).1 = [] :=
                hfield₂.feed_overlong (hm.timestamp f htime) hroom₂ fun g hg => by
              rw [List.append_nil]
              exact remainder_last hg
            rw [List.append_nil] at hlost
            rcases hmore : ns₂.feed f with ⟨ms, ns'⟩
            rw [hmore] at hlost
            rw [Option.getD_some, feed_append hfeed₁ hmore]
            exact hlost
        · refine hfield₁.feed_overlong hm.dqdata hroom₁ fun g hg => ?_
          cases htime : m.timestamp with
          | none =>
            rw [if_pos htime] at hg
            rw [Option.getD_none, List.append_nil]
            exact remainder_last hg
          | some f =>
            rw [if_neg (by rw [htime]; exact Option.some_ne_none f)] at hg
            exact remainder_field hg (remainder_last (hm.timestamp f htime))
      rcases hmore : ns₁.feed (m.dqdata ++ m.timestamp.getD []) with ⟨ms, ns'⟩
      rw [hmore] at hdata
      rw [feed_append hfeed₀ hmore]
      exact hdata
    · exact hfield.feed_overlong hm.tagged hroom₀ fun g hg => remainder_field hg
        (AcquisitionSlices.remainder_data hm)
  rcases hmore : ns₀.feed (m.tagged ++ (m.dqdata ++ m.timestamp.getD [])) with ⟨ms, ns'⟩
  rw [hmore] at hrest
  rw [AcquisitionSlices.bytes, feed_cons happend hmore]
  exact hrest

/-- Of a message what it says is delivered exactly if it fits. -/
theorem Between.feed_message (h : ns.Between srcbits) {m : StreamMessage} (hm : m.WellFormed) :
    ∃ (got : Option NexusDataAcquisitionMessage) (ns' : NexusStream), ns.feed m.bytes =
      (got.toList, ns') ∧
      ns'.Between srcbits ∧ (got.isSome → (m.acquired srcbits).isSome) ∧
        (got.map (·.acquired) = m.acquired srcbits ↔ m.Fits srcbits) := by
  cases m with
  | acquisition m =>
    obtain ⟨bs, last, hbytes, hbs, hlast⟩ :=
      remainder_field hm.tagged (AcquisitionSlices.remainder_data hm)
    obtain ⟨ns₁, happend, hinside⟩ :=
      h.enter (show dataAcquisitionSlice &&& 0x3 = MSEO_NORMAL by decide)
    obtain ⟨got, ns', hfeed, hbetween, -⟩ := hinside.feed hbs hlast
    rw [← hbytes] at hfeed
    have hall : ns.feed m.bytes = (got.toList, ns') := feed_cons happend hfeed
    refine ⟨got, ns', hall, hbetween, fun _ => rfl, fun hsame => ?_, fun hfits => ?_⟩
    · obtain ⟨dqm, rfl, hdqm⟩ := Option.map_eq_some_iff.mp hsame
      have hfits := dqm.acquired_fits
      rw [hdqm] at hfits
      refine ⟨hfits, ?_⟩
      by_contra hroom
      have hnone := h.feed_overlong hm hroom
      rw [hall] at hnone
      cases hnone
    · obtain ⟨hvalues, hroom⟩ := hfits
      obtain ⟨ns₂, hgot, -⟩ :=
        h.feed_acquisition hm hroom (hvalues.src.trans (by decide)) (hvalues.tag.trans (by decide))
      rw [hall] at hgot
      obtain ⟨hgot, -⟩ := Prod.mk.inj hgot
      cases got with
      | none => cases hgot
      | some dqm =>
        rw [List.cons.inj hgot |>.1]
        exact congrArg some (ofFields_acquired hvalues)
  | other first middle last =>
    obtain ⟨hfirst, hcode, hmiddle, hlast⟩ := hm
    obtain ⟨ns₁, happend, hinside⟩ := h.enter hfirst
    have hend : ∀ b : Byte, b &&& 0x3 = MSEO_END → b &&& 0x2 ≠ 0 := by decide
    obtain ⟨got, ns', hfeed, hbetween, hnone⟩ := hinside.feed hmiddle (hend _ hlast)
    obtain rfl := hnone (decide_eq_false hcode)
    exact ⟨none, ns', feed_cons happend hfeed, hbetween, fun h => h, iff_of_true rfl trivial⟩

/-- The messages are delivered, once each and as they are, exactly if all of them fit. -/
theorem Between.feed_messages (h : ns.Between srcbits) {messages : List StreamMessage}
    (hmessages : ∀ m ∈ messages, m.WellFormed) :
    let got : List Acquired := (ns.feed (messages.flatMap (·.bytes))).1.map (·.acquired)
    got.length ≤ (messages.filterMap (·.acquired srcbits)).length ∧
      (got = messages.filterMap (·.acquired srcbits) ↔ ∀ m ∈ messages, m.Fits srcbits) := by
  induction messages generalizing ns with
  | nil => exact ⟨le_rfl, iff_of_true rfl (List.forall_mem_nil _)⟩
  | cons m messages ih =>
    obtain ⟨hm, hmessages⟩ := List.forall_mem_cons.mp hmessages
    obtain ⟨got, ns', hfeed, hbetween, hsome, hgot⟩ := h.feed_message hm
    obtain ⟨hle, hiff⟩ := ih hbetween hmessages
    rcases hmore : ns'.feed (messages.flatMap (·.bytes)) with ⟨ms, ns''⟩
    rw [hmore] at hle hiff
    have hle : (ms.map (·.acquired)).length ≤ (messages.filterMap (·.acquired srcbits)).length :=
      hle
    intro all
    have hall : all = ((got.map (·.acquired)).toList : List Acquired) ++ ms.map (·.acquired) := by
      change (ns.feed (m.bytes ++ messages.flatMap (·.bytes))).1.map (·.acquired) = _
      rw [feed_append hfeed hmore, List.map_append]
      cases got <;> rfl
    have hsaid : (m :: messages).filterMap (·.acquired srcbits) =
        (m.acquired srcbits).toList ++ messages.filterMap (·.acquired srcbits) := by
      rw [List.filterMap_cons]
      cases m.acquired srcbits <;> rfl
    have hhead : ((got.map (·.acquired)).toList : List Acquired).length ≤
        (m.acquired srcbits).toList.length := by
      cases got with
      | none => exact Nat.zero_le _
      | some dqm =>
        obtain ⟨a, ha⟩ := Option.isSome_iff_exists.mp (hsome rfl)
        rw [ha]
        exact le_rfl
    rw [hall, hsaid, List.forall_mem_cons, ← hgot, ← hiff, List.length_append, List.length_append]
    refine ⟨Nat.add_le_add hhead hle, fun hsame => ?_, fun ⟨hfirst, hrest⟩ => by rw [hfirst, hrest]⟩
    -- neither part is longer than what it stands for, so that both are as long
    have hlen := congrArg List.length hsame
    rw [List.length_append, List.length_append] at hlen
    obtain ⟨hfirst, hrest⟩ := List.append_inj hsame (by omega)
    have hvalue := congrArg List.head? hfirst
    rw [Option.head?_toList, Option.head?_toList] at hvalue
    exact ⟨hvalue, hrest⟩

/-! ### The buffer -/

/-- The bytes of the buffer that `u8_to_buf` writes. -/
def u8_to_bufWrites : ℕ → ℕ → List ℕ
  | 0, _ => []
  | numbits + 1, curpos => curpos / 8 :: u8_to_bufWrites numbits (curpos + 1)

/-- The bytes that a slice writes; `emptyData` writes all of the buffer. -/
def appendByteWrites (ns : NexusStream) (byte : Byte) : List ℕ :=
  if ns.unwrapper.inMessage then
    (if ns.unwrapper.datanumbits < MAX_DATA * 8 - 6 then u8_to_bufWrites 6 ns.unwrapper.datanumbits
      else []) ++ (if byte &&& 0x3 ≠ 0 then List.range MAX_DATA else [])
  else []

def feedWrites (ns : NexusStream) : List Byte → List ℕ
  | [] => []
  | byte :: bytes => ns.appendByteWrites byte ++ feedWrites (ns.appendByteAndCheckForMessage byte).2
      bytes

theorem mem_u8_to_bufWrites {numbits curpos i : ℕ} (hi : i ∈ u8_to_bufWrites numbits curpos) :
    8 * i < curpos + numbits := by
  induction numbits generalizing curpos with
  | zero => exact absurd hi List.not_mem_nil
  | succ numbits ih =>
    rcases List.mem_cons.mp hi with rfl | hi
    · omega
    · have hrest := ih hi
      omega

theorem appendByteWrites_lt (ns : NexusStream) (byte : Byte) :
    ∀ i ∈ ns.appendByteWrites byte, i < MAX_DATA := by
  intro i hi
  unfold appendByteWrites at hi
  split_ifs at hi with hin hroom hmark hmark
  · rcases List.mem_append.mp hi with hi | hi
    · have hbits := mem_u8_to_bufWrites hi
      rw [MAX_DATA] at hroom ⊢
      omega
    · exact List.mem_range.mp hi
  · rw [List.append_nil] at hi
    have hbits := mem_u8_to_bufWrites hi
    rw [MAX_DATA] at hroom ⊢
    omega
  · rw [List.nil_append] at hi
    exact List.mem_range.mp hi
  · exact absurd hi List.not_mem_nil
  · exact absurd hi List.not_mem_nil

theorem feedWrites_lt (ns : NexusStream) (bytes : List Byte) :
    ∀ i ∈ ns.feedWrites bytes, i < MAX_DATA := by
  induction bytes generalizing ns with
  | nil => exact List.forall_mem_nil _
  | cons byte bytes ih =>
    intro i hi
    rcases List.mem_append.mp hi with hi | hi
    · exact ns.appendByteWrites_lt byte i hi
    · exact ih _ i hi

/-- **The stream resynchronises**: whatever it has been fed, behind noise that ends with an
end-of-message bit the messages are delivered, once each and with their own values, exactly if all
of them fit; and nothing is written outside the buffer. -/
theorem resynchronises_iff (srcbits : ℕ) (earlier noise : List Byte) (last : Byte)
    (hlast : last &&& 0x2 ≠ 0)
    (messages : List StreamMessage) (hmessages : ∀ m ∈ messages, m.WellFormed) :
    (((((init srcbits).feed earlier).2.feed (noise ++ [last])).2.feed
      (messages.flatMap (·.bytes))).1.map (·.acquired) =
        messages.filterMap (·.acquired srcbits) ↔ ∀ m ∈ messages, m.Fits srcbits) ∧
      ∀ (ns : NexusStream) (bytes : List Byte), ∀ i ∈ ns.feedWrites bytes, i < MAX_DATA := by
  refine ⟨?_, feedWrites_lt⟩
  have hsettled : ((init srcbits).feed earlier).2.Settled srcbits :=
    Settled.feed (.inl (between_init srcbits)) earlier
  rw [feed_concat]
  exact (((hsettled.feed noise).last hlast).feed_messages hmessages).2

/-- Behind a message with a field that has been begun and the rest of one: a message with another
code, and two data acquisition messages. -/
theorem resynchronises_begun :
    let messages : List StreamMessage :=
  [.other 0x08 [0x05] 0x03, .acquisition ⟨[0x29], [0x2b], none⟩,
      .acquisition ⟨[0x29], [0x00, 0x2d], some [0x28, 0x07]⟩]
    ((((init 0).feed [0x1c, 0x29]).2.feed ([0x00, 0x04] ++ [0x02])).2.feed
      (messages.flatMap (·.bytes))).1.map (·.acquired) =
        [⟨0, 10, 10, none⟩, ⟨0, 10, 704, some 74⟩] := by
  intro messages
  have hwell : ∀ m ∈ messages, m.WellFormed := by
    refine List.forall_mem_cons.mpr ⟨⟨by decide, by decide, by decide, by decide⟩,
      List.forall_mem_cons.mpr ⟨?_, List.forall_mem_singleton.mpr ?_⟩⟩
    · exact ⟨.last (by decide), .last (by decide), fun f hf => nomatch hf⟩
    · refine ⟨.last (by decide), .cons (by decide) (.last (by decide)), fun f hf => ?_⟩
      obtain rfl := Option.some.inj hf
      exact .cons (by decide) (.last (by decide))
  have hfits : ∀ m ∈ messages, m.Fits 0 := by
    refine List.forall_mem_cons.mpr ⟨trivial, List.forall_mem_cons.mpr
      ⟨?_, List.forall_mem_singleton.mpr ?_⟩⟩
    · exact ⟨⟨by decide, by decide, by decide, fun t ht => nomatch ht⟩,
        ⟨by decide, by decide, fun f hf => nomatch hf⟩⟩
    · refine ⟨⟨by decide, by decide, by decide, fun t ht => ?_⟩,
        ⟨by decide, by decide, fun f hf => ?_⟩⟩
      · obtain rfl := Option.some.inj ht
        decide
      · obtain rfl := Option.some.inj hf
        decide
  exact (resynchronises_iff 0 [0x1c, 0x29] [0x00, 0x04] 0x02 (by decide) messages hwell).1.mpr hfits

/-- The data of a well-formed message is 2 ^ 32 + 5; what is delivered is 5. -/
theorem resynchronises_wide :
    let m : AcquisitionSlices := ⟨[0x29], [0x14, 0x00, 0x00, 0x00, 0x00, 0x13], none⟩
    m.WellFormed ∧ (m.acquired 0).data = 2 ^ 32 + 5 ∧
      ((((init 0).feed []).2.feed ([] ++ [0x02])).2.feed m.bytes).1.map (·.acquired.data) =
        [5] := by
  intro m
  have hwell : m.WellFormed := by
    refine ⟨.last (by decide), ?_, fun f hf => nomatch hf⟩
    exact .cons (by decide)
      (.cons (by decide) (.cons (by decide)
      (.cons (by decide) (.cons (by decide) (.last (by decide))))))
  refine ⟨hwell, by decide, ?_⟩
  have hsettled : (init 0).Settled 0 := .inl (between_init 0)
  have hbetween : (((init 0).feed []).2.feed ([] ++ [0x02])).2.Between 0 :=
    hsettled.last (show (0x02 : Byte) &&& 0x2 ≠ 0 by decide)
  obtain ⟨ns', hfeed, -⟩ := hbetween.feed_acquisition hwell ⟨by decide, by decide, fun f hf =>
    nomatch hf⟩ (by decide) (by decide)
  have hdata : (NexusDataAcquisitionMessage.ofFields 0 (fieldValue m.tagged) (fieldValue m.dqdata)
      none).acquired.data = 5 := by
    decide
  rw [hfeed]
  exact congrArg (fun data => [data]) hdata

end NexusStream

end TraceDecoder
