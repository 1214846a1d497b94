import Mathlib.Data.List.Basic
import Mathlib.Data.List.Induction
import TraceDecoder.StreamMessages

/-!
# What the stream passes over

Of a message that is not accepted nothing is left at its last slice. Between two messages a byte
with a mark is passed over, but a byte of zeros is taken for the start of a message.
-/

namespace TraceDecoder

namespace NexusStream

open NexusMessageReassembler

variable {ns : NexusStream} {srcbits : ℕ}

structure Inside (srcbits : ℕ) (accept : Bool) (ns : NexusStream) : Prop where
  inMessage : ns.unwrapper.inMessage = true
  srcbits : ns.reassembler.srcbits = srcbits
  acceptingMessage : ns.reassembler.acceptingMessage = accept
  messageReady : ns.reassembler.messageReady = false

variable {accept : Bool} {b : Byte}

theorem collect_inMessage (u : NexusSliceUnwrapper) (mdo : Byte) : (u.collect mdo).inMessage =
    u.inMessage := by
  unfold NexusSliceUnwrapper.collect
  split_ifs <;> rfl

theorem Inside.endField (h : ns.Inside srcbits accept) (meso : Byte) (u : NexusSliceUnwrapper) :
    let r := ns.reassembler.messageData u.datanumbits u.data u.dataoverflowed
    let r := if meso &&& 0x1 ≠ 0 then r.endField else r
    r.srcbits = srcbits ∧ r.acceptingMessage = accept ∧ r.messageReady = false := by
  obtain ⟨lost, dqm, hframe⟩ :=
    ns.reassembler.messageData_frame u.datanumbits u.data u.dataoverflowed
  intro r r'
  have hr : r = { ns.reassembler with messageHasOverflowedField := lost, dqm := dqm } := hframe
  have hr' : r' = if meso &&& 0x1 ≠ 0 then r.endField else r := rfl
  rw [hr', hr]
  split_ifs <;> exact ⟨h.srcbits, h.acceptingMessage, h.messageReady⟩

theorem Inside.slice (h : ns.Inside srcbits accept) (hmark : b &&& 0x2 = 0) :
    ∃ ns', ns.appendByteAndCheckForMessage b = (none, ns') ∧ ns'.Inside srcbits accept := by
  have hmark' : b &&& 0x3 &&& 0x2 = 0 := by rwa [BitVec.and_assoc]
  have hin : ∀ u : NexusSliceUnwrapper, u = ns.unwrapper.collect (b >>> 2) →
      u.inMessage = true := by
    rintro u rfl
    rw [collect_inMessage, h.inMessage]
  by_cases hzero : b &&& 0x3 = 0
  · have happend : ns.appendByte b = ⟨ns.reassembler, ns.unwrapper.collect (b >>> 2)⟩ := by
      simp only [appendByte, h.inMessage, hzero, Bool.true_eq_false, false_and, if_false, if_true,
        ne_eq, not_true_eq_false]
    refine ⟨⟨ns.reassembler, ns.unwrapper.collect (b >>> 2)⟩, ?_,
      ⟨hin _ rfl, h.srcbits, h.acceptingMessage, h.messageReady⟩⟩
    rw [appendByteAndCheckForMessage, happend]
    simp only [getMessage_none h.messageReady]
  · set u := ns.unwrapper.collect (b >>> 2) with hu
    obtain ⟨hsrc, haccept, hready⟩ := h.endField (b &&& 0x3) u
    set r := if b &&& 0x3 &&& 0x1 ≠ 0 then (ns.reassembler.messageData u.datanumbits u.data
      u.dataoverflowed).endField else ns.reassembler.messageData u.datanumbits u.data
        u.dataoverflowed
    have happend : ns.appendByte b = ⟨r, u.emptyData⟩ := by
      simp only [appendByte, h.inMessage, ← hu, hzero, hmark', Bool.true_eq_false, false_and,
        if_false, if_true, ne_eq, not_true_eq_false, not_false_eq_true]
      rfl
    refine ⟨⟨r, u.emptyData⟩, ?_, ⟨hin u hu, hsrc, haccept, hready⟩⟩
    rw [appendByteAndCheckForMessage, happend]
    simp only [getMessage_none hready]

theorem Inside.last (h : ns.Inside srcbits accept) (hmark : b &&& 0x2 ≠ 0) :
    ∃ got ns', ns.appendByteAndCheckForMessage b = (got, ns') ∧ ns'.Between srcbits ∧
      (accept = false → got = none) := by
  have hmark' : b &&& 0x3 &&& 0x2 ≠ 0 := by rwa [BitVec.and_assoc]
  have hzero : b &&& 0x3 ≠ 0 := fun hzero => hmark' (by rw [hzero]; rfl)
  set u := ns.unwrapper.collect (b >>> 2) with hu
  obtain ⟨hsrc, haccept, hready⟩ := h.endField (b &&& 0x3) u
  set r := if b &&& 0x3 &&& 0x1 ≠ 0 then (ns.reassembler.messageData u.datanumbits u.data
    u.dataoverflowed).endField else ns.reassembler.messageData u.datanumbits u.data u.dataoverflowed
  have happend : ns.appendByte b = ⟨r.endMessage, .init⟩ := by
    simp only [appendByte, h.inMessage, ← hu, hzero, hmark', Bool.true_eq_false, false_and,
      if_false, if_true, ne_eq, not_false_eq_true]
    rfl
  have hend : r.endMessage.getMessage.2.srcbits = srcbits ∧
      r.endMessage.getMessage.2.acceptingMessage = false ∧ r.endMessage.getMessage.2.messageReady =
        false ∧ (accept = false → r.endMessage.getMessage.1 = none) := by
    cases accept with
    | false =>
      have hsame : r.endMessage = r := by rw [endMessage, haccept]; rfl
      rw [hsame, getMessage_none hready]
      exact ⟨hsrc, haccept, hready, fun _ => rfl⟩
    | true =>
      simp only [endMessage, haccept, if_true, getMessage]
      split_ifs with hgot
      · exact ⟨hsrc, rfl, rfl, fun h => by cases h⟩
      · exact ⟨hsrc, rfl, Bool.eq_false_iff.mpr hgot, fun h => by cases h⟩
  refine ⟨_, ⟨r.endMessage.getMessage.2, .init⟩, ?_, ⟨rfl, hend.1, hend.2.1, hend.2.2.1⟩,
    hend.2.2.2⟩
  rw [appendByteAndCheckForMessage, happend]

theorem Inside.feed (h : ns.Inside srcbits accept) {bs : List Byte} {last : Byte}
    (hbs : ∀ b ∈ bs, b &&& 0x2 = 0) (hlast : last &&& 0x2 ≠ 0) :
    ∃ got ns', ns.feed (bs ++ [last]) = (got.toList, ns') ∧ ns'.Between srcbits ∧
      (accept = false → got = none) := by
  induction bs generalizing ns with
  | nil =>
    obtain ⟨got, ns', happend, hbetween, hnone⟩ := h.last hlast
    refine ⟨got, ns', ?_, hbetween, hnone⟩
    have hfeed := feed_cons happend (rfl : ns'.feed [] = ([], ns'))
    rwa [List.append_nil] at hfeed
  | cons b bs ih =>
    obtain ⟨hb, hbs⟩ := List.forall_mem_cons.mp hbs
    obtain ⟨ns₁, happend, hinside⟩ := h.slice hb
    obtain ⟨got, ns', hfeed, hrest⟩ := ih hinside hbs
    exact ⟨got, ns', feed_cons happend hfeed, hrest⟩

theorem Between.enter (h : ns.Between srcbits) (hmark : b &&& 0x3 = MSEO_NORMAL) :
    ∃ ns', ns.appendByteAndCheckForMessage b = (none, ns') ∧ ns'.Inside srcbits
      (decide (b >>> 2 = 7)) := by
  obtain ⟨ns', happend, hcollect, hr⟩ := h.start hmark
  refine ⟨ns', happend, ⟨hcollect.inMessage, ?_, ?_, hcollect.messageReady⟩⟩ <;> rw [hr]

theorem Between.skip (h : ns.Between srcbits) (hmark : b &&& 0x3 ≠ MSEO_NORMAL) :
    ns.appendByteAndCheckForMessage b = (none, ns) := by
  have hzero : ¬ b &&& 0x3 = 0 := hmark
  have happend : ns.appendByte b = ns := by
    simp only [appendByte, h.unwrapper, hzero, and_false, if_false, NexusSliceUnwrapper.init,
      Bool.false_eq_true]
  rw [appendByteAndCheckForMessage, happend]
  simp only [getMessage_none h.messageReady]

/-! ### Idle bytes -/

/-- There is a byte of zeros behind which no byte has the end-of-message bit. -/
def Stalls (idle : List Byte) : Prop :=
  ∃ pre post, idle = pre ++ 0x00 :: post ∧ ∀ b ∈ post, b &&& 0x2 = 0

theorem not_stalls_nil : ¬ Stalls [] := by
  rintro ⟨pre, post, heq, -⟩
  exact absurd (congrArg List.length heq) (by simp)

theorem stalls_concat (idle : List Byte) (b : Byte) :
    Stalls (idle ++ [b]) ↔ b = 0x00 ∨ b &&& 0x2 = 0 ∧ Stalls idle := by
  constructor
  · rintro ⟨pre, post, heq, hpost⟩
    rcases List.eq_nil_or_concat' post with rfl | ⟨post, c, rfl⟩
    · exact .inl (List.singleton_inj.mp (List.append_inj' heq rfl).2)
    · rw [← List.cons_append, ← List.append_assoc] at heq
      obtain ⟨hidle, hb⟩ := List.append_inj' heq rfl
      rw [← List.singleton_inj.mp hb] at hpost
      exact .inr ⟨hpost b (by simp), pre, post, hidle, fun c hc =>
        hpost c (List.mem_append_left _ hc)⟩
  · rintro (rfl | ⟨hb, pre, post, rfl, hpost⟩)
    · exact ⟨idle, [], rfl, List.forall_mem_nil _⟩
    · refine ⟨pre, post ++ [b], by rw [List.append_assoc, List.cons_append], ?_⟩
      exact List.forall_mem_append.mpr ⟨hpost, List.forall_mem_singleton.mpr hb⟩

def Idle (b : Byte) : Prop := b = 0x00 ∨ b &&& 0x3 ≠ MSEO_NORMAL

/-- A byte of zeros among the idle bytes starts a message, which goes on until
its end-of-message mark. -/
theorem Between.feed_idle (h : ns.Between srcbits) {idle : List Byte} (hidle : ∀ b ∈ idle, Idle b) :
    ∃ ns', ns.feed idle = ([], ns') ∧ (Stalls idle → ns'.Inside srcbits false) ∧
      (¬ Stalls idle → ns'.Between srcbits) := by
  induction idle using List.reverseRecOn with
  | nil => exact ⟨ns, rfl, fun hstalls => absurd hstalls not_stalls_nil, fun _ => h⟩
  | append_singleton idle b ih =>
    obtain ⟨hidle, hb⟩ := List.forall_mem_append.mp hidle
    obtain ⟨ns₁, hfeed, hinside, hbetween⟩ := ih hidle
    have hb : Idle b := hb b (List.mem_singleton_self b)
    rw [stalls_concat]
    have hnext : ∀ {ns'}, ns₁.appendByteAndCheckForMessage b = (none, ns') → ns.feed (idle ++ [b]) =
        ([], ns') :=
      fun happend => feed_append hfeed (feed_cons happend (rfl : feed _ [] = ([], _)))
    by_cases hstalls : Stalls idle
    · by_cases hmark : b &&& 0x2 = 0
      · obtain ⟨ns', happend, hinside'⟩ := (hinside hstalls).slice hmark
        exact ⟨ns', hnext happend, fun _ => hinside', fun hnot => absurd (.inr ⟨hmark, hstalls⟩)
          hnot⟩
      · obtain ⟨got, ns', happend, hbetween', hnone⟩ := (hinside hstalls).last hmark
        rw [hnone rfl] at happend
        refine ⟨ns', hnext happend, ?_, fun _ => hbetween'⟩
        rintro (rfl | ⟨hzero, -⟩)
        · exact absurd (by decide) hmark
        · exact absurd hzero hmark
    · by_cases hzero : b = 0x00
      · subst hzero
        obtain ⟨ns', happend, hinside'⟩ := (hbetween hstalls).enter (b := 0x00) (by decide)
        exact ⟨ns', hnext happend, fun _ => hinside', fun hnot => absurd (.inl rfl) hnot⟩
      · refine ⟨ns₁, hnext ((hbetween hstalls).skip (hb.resolve_left hzero)), ?_, fun _ =>
          hbetween hstalls⟩
        rintro (hzero' | ⟨-, hstalls'⟩)
        · exact absurd hzero' hzero
        · exact absurd hstalls' hstalls

end NexusStream

end TraceDecoder
