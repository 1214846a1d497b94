import TraceDecoder.StreamIdle
import TraceDecoder.StreamLayout

/-!
# The two stream decoders

What `NexusStream` delivers of a stream of well-formed messages with idle bytes between them, and
what `readNextTraceMsg` returns of it. The two differ in what they take for the start of a message:
a byte of zeros is skipped by `readBinaryMsg`, but `NexusSliceUnwrapper` starts a message with it.
And behind a message with a field that it refuses the parser returns nothing more.
-/

namespace TraceDecoder

open SliceFileParser NexusStream

def Content.acquired : Content → Option Acquired
  | ⟨coreId, timestamp, .dataAcquisition idTag data⟩ =>
    some ⟨coreId.toNat, idTag.toNat, data.toNat, timestamp.map (·.toNat)⟩
  | _ => none

structure Sent where
  idle : List Byte
  msg : List Byte

variable {srcbits : ℕ} {msg trailing : List Byte} {keep : List Byte → Bool} {stream : List Sent}

/-- What the stream delivers, byte by byte, of each message that is kept, and
of the bytes behind them. -/
def streamed (keep : List Byte → Bool) (trailing : List Byte) :
    NexusStream → List Sent → List (List Acquired)
  | ns, [] => [(ns.feed trailing).1.map (·.acquired)]
  | ns, p :: stream =>
    (if keep p.msg then (ns.feed (p.idle ++ p.msg)).1.map (·.acquired) else []) ::
      streamed keep trailing (ns.feed (p.idle ++ p.msg)).2 stream

def returned (keep : List Byte → Bool) :
    SliceFileParser → Analytics → NexusMessage → List Sent → List (List Acquired)
  | s, analytics, nm, [] => [((s.readNextTraceMsg analytics nm).delivered.bind (·.acquired)).toList]
  | s, analytics, nm, p :: stream =>
    let r := s.readNextTraceMsg analytics nm
    (if keep p.msg then (r.delivered.bind (·.acquired)).toList else []) ::
      returned keep r.parser r.analytics r.nm stream

def Oversized (srcbits : ℕ) (msg : List Byte) : Prop :=
  ∃ tagged dqdata timestamp, DataAcquisitionSlices msg tagged dqdata timestamp ∧
    ¬ (tagged / 2 ^ srcbits < 2 ^ 32 ∧ dqdata < 2 ^ 32)

def Fits (srcbits : ℕ) (msg : List Byte) : Prop :=
  codeOf msg = .dataAcquisition ∧ ¬ Oversized srcbits msg

def Refuses (srcbits : ℕ) (msg : List Byte) : Prop :=
  ∃ fs c, MessageFields srcbits fs c ∧ Laid 0 fs ∧ encode fs = msg ∧ ¬ Accepted fs

def HasCore (srcbits : ℕ) (msg : List Byte) : Prop :=
  ∀ fs c, MessageFields srcbits fs c → Laid 0 fs → encode fs = msg → Accepted fs →
    c.coreId.toNat < DQR_MAXCORES

def bytesOf (stream : List Sent) (trailing : List Byte) : List Byte :=
  (stream.flatMap fun p => p.idle ++ p.msg) ++ trailing

open Classical in
/-- The stream and the parser agree on every data acquisition message, those apart that do not fit,
and nothing behind the arrays of the analytics has been written. -/
def Agrees (srcbits : ℕ) (nm : NexusMessage) (stream : List Sent) (trailing : List Byte) : Prop :=
  let keep := fun msg => decide (¬ Oversized srcbits msg)
  let s := SliceFileParser.init srcbits (bytesOf stream trailing)
  streamed keep trailing (NexusStream.init srcbits) stream = returned keep s {} nm stream ∧
    ∀ r ∈ readMsgs (stream.length + 1) s {} nm, r.analytics.overrun = false

/-- What the two need of a message behind those that are `before` it: if it is a data acquisition
message that fits, the stream must stall in front of it exactly if the parser has refused a field;
and the parser must not read a message that no core has sent. -/
structure AgreesAt (srcbits : ℕ) (before : List Sent) (p : Sent) : Prop where
  delivers : Fits srcbits p.msg → (Stalls p.idle ↔ ∃ q ∈ before, Refuses srcbits q.msg)
  hasCore : (∀ q ∈ before, ¬ Refuses srcbits q.msg) → HasCore srcbits p.msg

/-! ### What a message says -/

def acquiredOf (srcbits : ℕ) (msg : List Byte) : List Acquired :=
  ((contentOf srcbits msg).bind (·.acquired)).toList

theorem acquired_ofFields (hsrc : srcbits ≤ 8) (tagged dqdata : ℕ) (timestamp : Option ℕ) :
    some (NexusDataAcquisitionMessage.ofFields srcbits tagged dqdata timestamp).acquired =
      Content.acquired ⟨BitVec.ofNat 8 (tagged % 2 ^ srcbits), timestamp.map (BitVec.ofNat 64),
        .dataAcquisition (BitVec.ofNat 32 (tagged / 2 ^ srcbits)) (BitVec.ofNat 32 dqdata)⟩ := by
  have hlow : tagged % 2 ^ srcbits < 2 ^ 8 :=
    (Nat.mod_lt _ (Nat.two_pow_pos _)).trans_le (Nat.pow_le_pow_right (by decide) hsrc)
  have hword : (BitVec.ofNat 32 (tagged % 2 ^ srcbits)).toNat =
      (BitVec.ofNat 8 (tagged % 2 ^ srcbits)).toNat := by
    rw [BitVec.toNat_ofNat, BitVec.toNat_ofNat, Nat.mod_eq_of_lt hlow, Nat.mod_eq_of_lt
      (hlow.trans (by decide))]
  simp only [NexusDataAcquisitionMessage.acquired, NexusDataAcquisitionMessage.ofFields,
    Content.acquired, hword]
  cases timestamp <;> rfl

theorem acquiredOf_eq_nil (hmsg : Framed msg) (hcode : codeOf msg ≠ .dataAcquisition) :
    acquiredOf srcbits msg = [] := by
  have halone := parseTraceMsg_alone (atMessage srcbits msg) rfl rfl rfl hmsg.two_le_length
  cases hrun : parseTraceMsg (atMessage srcbits msg) with
  | ok m s =>
    rw [hrun] at halone
    obtain ⟨hcontent, ⟨-, htcode⟩, -⟩ := halone
    have hsame : contentOf srcbits msg = some ⟨m.coreId, m.timestamp, m.body⟩ := hcontent
    have hbody : m.body.tcode ≠ .dataAcquisition := by rwa [htcode]
    rw [acquiredOf, hsame]
    revert hbody
    cases m.body <;> intro hbody <;> first | rfl | exact absurd rfl hbody
  | error e s =>
    rw [hrun] at halone
    have hnone : contentOf srcbits msg = none := halone.1
    rw [acquiredOf, hnone]
    rfl

theorem WellFormed.framed (h : WellFormed srcbits msg) (hlen : msg.length ≤ 64) : Framed msg := by
  obtain ⟨fs, c, hfields, hlaid, rfl⟩ := h
  exact hfields.framed hlaid hlen

theorem contentOf_eq_none_iff (h : WellFormed srcbits msg) :
    contentOf srcbits msg = none ↔ Refuses srcbits msg := by
  constructor
  · intro hnone
    obtain ⟨fs, c, hfields, hlaid, rfl⟩ := h
    refine ⟨fs, c, hfields, hlaid, rfl, fun haccepted => ?_⟩
    rw [hfields.contentOf hlaid, if_pos haccepted] at hnone
    cases hnone
  · rintro ⟨fs, c, hfields, hlaid, rfl, hrefused⟩
    rw [hfields.contentOf hlaid, if_neg hrefused]

theorem hasCore_iff (h : WellFormed srcbits msg) :
    HasCore srcbits msg ↔ ∀ c ∈ contentOf srcbits msg, c.coreId.toNat < DQR_MAXCORES := by
  constructor
  · intro hcore c hc
    obtain ⟨fs, c', hfields, hlaid, rfl⟩ := h
    have hc : contentOf srcbits (encode fs) = some c := hc
    rw [hfields.contentOf hlaid, Option.ite_none_right_eq_some] at hc
    obtain ⟨haccepted, hsame⟩ := hc
    rw [← Option.some.inj hsame]
    exact hcore fs c' hfields hlaid rfl haccepted
  · rintro hcore fs c hfields hlaid rfl haccepted
    refine hcore c ?_
    change contentOf srcbits (encode fs) = some c
    rw [hfields.contentOf hlaid, if_pos haccepted]

theorem encode_marks (fs : List WireField) : ∀ b ∈ encode fs, b &&& 0x3 ≠ 0x2 := by
  intro b hb
  obtain ⟨i, -, rfl⟩ := List.mem_map.mp hb
  rw [encodeSlice_mseo, endMark]
  split_ifs <;> decide

/-- A data acquisition message that fits is read, and says what its slices hold. -/
theorem WellFormed.acquiredOf (h : WellFormed srcbits msg) (hsrc : srcbits ≤ 8)
    (hfits : Fits srcbits msg) :
    ∃ tagged dqdata timestamp, DataAcquisitionSlices msg tagged dqdata timestamp ∧
      tagged / 2 ^ srcbits < 2 ^ 32 ∧
      acquiredOf srcbits msg =
        [(NexusDataAcquisitionMessage.ofFields srcbits tagged dqdata timestamp).acquired] := by
  obtain ⟨fs, c, hfields, hlaid, rfl⟩ := h
  have hcode := hfits.1
  rw [hfields.codeOf hlaid] at hcode
  obtain ⟨src, t, d, ts, hacq⟩ := hfields.acquisition hlaid hcode
  have hslices := hacq.slices
  obtain ⟨htag, hdata⟩ : (src + 2 ^ srcbits * t) / 2 ^ srcbits < 2 ^ 32 ∧ d < 2 ^ 32 := by
    by_contra hnot
    exact hfits.2 ⟨_, _, _, hslices, hnot⟩
  have hdiv : (src + 2 ^ srcbits * t) / 2 ^ srcbits = t := by
    rw [Nat.add_mul_div_left _ _ (Nat.two_pow_pos _), Nat.div_eq_of_lt hacq.source, Nat.zero_add]
  have hmod : (src + 2 ^ srcbits * t) % 2 ^ srcbits = src := by
    rw [Nat.add_mul_mod_self_left, Nat.mod_eq_of_lt hacq.source]
  refine ⟨_, _, _, hslices, htag, ?_⟩
  rw [hdiv] at htag
  rw [TraceDecoder.acquiredOf, hfields.contentOf hlaid, if_pos (hacq.accepted htag hdata),
    Option.bind_some, hacq.content]
  have htold := acquired_ofFields hsrc (src + 2 ^ srcbits * t) d (ts.map (·.2))
  rw [hmod, hdiv, Option.map_map] at htold
  exact congrArg Option.toList htold.symm

/-! ### The stream -/

theorem WellFormed.marks (h : WellFormed srcbits msg) : ∀ b ∈ msg, b &&& 0x3 ≠ 0x2 := by
  obtain ⟨fs, c, -, -, rfl⟩ := h
  exact encode_marks fs

theorem Framed.slices (hmsg : Framed msg) (hmarks : ∀ b ∈ msg, b &&& 0x3 ≠ 0x2) :
    ∃ first middle last, msg = first :: (middle ++ [last]) ∧ first &&& 0x3 = MSEO_NORMAL ∧
      (∀ b ∈ middle, b &&& 0x2 = 0) ∧ last &&& 0x2 ≠ 0 := by
  obtain @⟨first, last, middle, -, hmark, hmiddle, hlast, -⟩ := hmsg
  have hbit : ∀ b : Byte, b &&& 0x3 ≠ 0x2 → b &&& 0x3 ≠ MSEO_END → b &&& 0x2 = 0 := by decide
  have hend : ∀ b : Byte, b &&& 0x3 = MSEO_END → b &&& 0x2 ≠ 0 := by decide
  refine ⟨first, middle, last, rfl, hmark, fun b hb => ?_, hend last hlast⟩
  exact hbit b (hmarks b (List.mem_cons_of_mem _ (List.mem_append_left _ hb))) (hmiddle b hb)

theorem codeOf_slice {first : Byte} (rest : List Byte) (hmark : first &&& 0x3 = MSEO_NORMAL)
    (htcode : first >>> 2 = 7) :
    codeOf (first :: rest) = .dataAcquisition := by
  have hslice : ∀ b : Byte, b &&& 0x3 = MSEO_NORMAL → b >>> 2 = 7 → b = dataAcquisitionSlice := by
    decide
  have hcode : codeOf [dataAcquisitionSlice] = .dataAcquisition := by decide
  obtain rfl := hslice first hmark htcode
  exact hcode

variable {ns : NexusStream}

/-- Between two messages the next one is delivered if it is kept. -/
theorem NexusStream.Between.feed_wellFormed (h : ns.Between srcbits) (hsrc : srcbits ≤ 8)
    (hmsg : WellFormed srcbits msg) (hframed : Framed msg) :
    ∃ ms ns', ns.feed msg = (ms, ns') ∧ ns'.Between srcbits ∧
      (¬ Oversized srcbits msg → ms.map (·.acquired) = acquiredOf srcbits msg) := by
  by_cases hfits : Fits srcbits msg
  · obtain ⟨tagged, dqdata, timestamp, hslices, htag, htold⟩ := hmsg.acquiredOf hsrc hfits
    obtain ⟨ns', hfeed, hbetween⟩ :=
      h.feed_dataAcquisition (NexusMessageReassembler.source_lt (hsrc.trans (by decide)) _) hslices
        (hframed.length_le.trans (by decide)) (htag.trans (by decide))
    refine ⟨_, ns', hfeed, hbetween, fun _ => ?_⟩
    rw [htold]
    rfl
  · obtain ⟨first, middle, last, rfl, hmark, hmiddle, hlast⟩ := hframed.slices hmsg.marks
    obtain ⟨ns₁, happend, hinside⟩ := h.enter hmark
    obtain ⟨got, ns', hfeed, hbetween, hnone⟩ := hinside.feed hmiddle hlast
    refine ⟨got.toList, ns', feed_cons happend hfeed, hbetween, fun hkeep => ?_⟩
    have hother : codeOf (first :: (middle ++ [last])) ≠ .dataAcquisition :=
      fun hdata => hfits ⟨hdata, hkeep⟩
    have htcode : decide (first >>> 2 = 7) = false :=
      decide_eq_false fun h7 => hother (codeOf_slice _ hmark h7)
    rw [hnone htcode, acquiredOf_eq_nil hframed hother]
    rfl

/-- What is delivered of a message and the idle bytes in front of it. -/
theorem NexusStream.Between.feed_sent (h : ns.Between srcbits) (hsrc : srcbits ≤ 8) {p : Sent}
    (hidle : ∀ b ∈ p.idle, Idle b) (hmsg : WellFormed srcbits p.msg) (hframed : Framed p.msg) :
    ∃ ms ns', ns.feed (p.idle ++ p.msg) = (ms, ns') ∧ ns'.Between srcbits ∧
      (Stalls p.idle → ms = []) ∧
      (¬ Stalls p.idle → ¬ Oversized srcbits p.msg → ms.map (·.acquired) = acquiredOf srcbits
        p.msg) := by
  obtain ⟨ns₁, hfeed, hinside, hbetween⟩ := h.feed_idle hidle
  by_cases hstalls : Stalls p.idle
  · obtain ⟨first, middle, last, heq, hmark, hmiddle, hlast⟩ := hframed.slices hmsg.marks
    have hmark' : ∀ b : Byte, b &&& 0x3 = MSEO_NORMAL → b &&& 0x2 = 0 := by decide
    obtain ⟨got, ns', hrest, hbetween', hnone⟩ := (hinside hstalls).feed
      (List.forall_mem_cons.mpr ⟨hmark' first hmark, hmiddle⟩) hlast
    rw [List.cons_append, ← heq] at hrest
    refine ⟨got.toList, ns', feed_append hfeed hrest, hbetween', fun _ => ?_, fun hnot =>
      absurd hstalls hnot⟩
    rw [hnone rfl]
    rfl
  · obtain ⟨ms, ns', hrest, hbetween', hms⟩ := (hbetween hstalls).feed_wellFormed hsrc hmsg hframed
    exact ⟨ms, ns', feed_append hfeed hrest, hbetween', fun h => absurd h hstalls, fun _ => hms⟩

/-! ### The parser -/

theorem skipIdle_append {idle : List Byte} (hidle : ∀ b ∈ idle, Idle b) (tf : List Byte) :
    skipIdle (idle ++ tf) = skipIdle tf := by
  induction idle with
  | nil => rfl
  | cons b idle ih =>
    obtain ⟨hb, hidle⟩ := List.forall_mem_cons.mp hidle
    have hb : b = 0x00 ∨ b &&& 0x03 ≠ MSEO_NORMAL := hb
    rw [List.cons_append, skipIdle, if_pos hb, ih hidle]

theorem length_skipIdle (tf : List Byte) : (skipIdle tf).length ≤ tf.length := by
  induction tf with
  | nil => exact Nat.le_refl _
  | cons b tf ih =>
    rw [skipIdle]
    split_ifs
    · exact ih.trans (Nat.le_succ _)
    · exact Nat.le_refl _

/-- The idle bytes in front of a message only count in its offset. -/
theorem readNextTraceMsg_idle (s : SliceFileParser) (analytics : Analytics) (nm : NexusMessage)
    {idle tf : List Byte}
    (hidle : ∀ b ∈ idle, Idle b) (htf : s.tf = idle ++ tf) (hstatus : s.status = .ok)
    (hflush : s.flushMessage = false) :
    s.readNextTraceMsg analytics nm =
      { s with tf := tf, tellg := s.tellg + idle.length }.readNextTraceMsg analytics nm := by
  have hread : readBinaryMsg s = readBinaryMsg { s with tf := tf, tellg := s.tellg +
      idle.length } := by
    have hlen := length_skipIdle tf
    simp only [readBinaryMsg, hflush, htf, Bool.false_eq_true, if_false, skipIdle_append hidle,
      List.length_append]
    cases hskip : skipIdle tf with
    | nil => simp only [Nat.add_assoc]
    | cons b rest =>
      rw [hskip, List.length_cons] at hlen
      have hstart : s.tellg + (idle.length + tf.length - rest.length) =
          s.tellg + idle.length + (tf.length - rest.length) := by omega
      simp only [hstart]
  rw [readNextTraceMsg, readNextTraceMsg, if_neg (not_not.mpr hstatus),
    if_neg (not_not.mpr hstatus), hread]

/-- The next message is read, unless the parser refuses a field of it. -/
theorem readNextTraceMsg_sent {s : SliceFileParser} {analytics : Analytics} (nm : NexusMessage)
    {p : Sent}
    (hidle : ∀ b ∈ p.idle, Idle b) (hmsg : WellFormed srcbits p.msg) (hframed : Framed p.msg)
    (hat : AtMessages srcbits [bytesOf (p :: stream) trailing] s analytics) :
    let r := s.readNextTraceMsg analytics nm
    r.delivered = contentOf srcbits p.msg ∧
      (r.analytics.overrun = false ↔ analytics.overrun = false ∧ HasCore srcbits p.msg) ∧
      (Refuses srcbits p.msg → r.parser.status ≠ .ok) ∧
      (¬ Refuses srcbits p.msg → AtMessages srcbits [bytesOf stream trailing] r.parser r.analytics) := by
  have htf : s.tf = p.idle ++ (p.msg ++ bytesOf stream trailing) := by
    rw [hat.tf, List.flatten_singleton, bytesOf, bytesOf, List.flatMap_cons, List.append_assoc,
      List.append_assoc]
  have hat' : AtMessages srcbits [p.msg, bytesOf stream trailing]
      { s with tf := p.msg ++ bytesOf stream trailing, tellg := s.tellg + p.idle.length }
        analytics :=
    ⟨hat.status, hat.flush, hat.srcbits, by simp, hat.analytics⟩
  obtain ⟨hdelivered, -, -, hoverrun, hnext⟩ := readNextTraceMsg_framed nm hframed hat'
  rw [← readNextTraceMsg_idle s analytics nm hidle htf hat.status hat.flush] at hdelivered hoverrun hnext
  refine ⟨hdelivered, ?_, fun hrefuses => ?_, fun hreads => ?_⟩
  · rw [hoverrun, hasCore_iff hmsg]
    cases contentOf srcbits p.msg <;> simp
  · rw [if_pos ⟨(contentOf_eq_none_iff hmsg).mpr hrefuses, hmsg.parserOf_ne_none⟩] at hnext
    exact hnext.1
  · rwa [if_neg fun h => hreads ((contentOf_eq_none_iff hmsg).mp h.1)] at hnext

theorem readNextTraceMsg_stuck {s : SliceFileParser} (analytics : Analytics) (nm : NexusMessage)
    (h : s.status ≠ .ok) :
    s.readNextTraceMsg analytics nm = ⟨s.status, false, nm, s, analytics⟩ := if_pos h

theorem delivered_trailing {s : SliceFileParser} {analytics : Analytics} (nm : NexusMessage)
    (htrailing : ∀ b ∈ trailing, Idle b)
    (hat : AtMessages srcbits [bytesOf [] trailing] s analytics) :
    (s.readNextTraceMsg analytics nm).delivered = none ∧
      (s.readNextTraceMsg analytics nm).analytics = analytics := by
  have htf : s.tf = trailing ++ [] := by
    rw [hat.tf]
    rfl
  obtain ⟨hend, hsame⟩ :=
    readNextTraceMsg_end nm (s := { s with tf := [], tellg := s.tellg + trailing.length })
      ⟨hat.status, hat.flush, hat.srcbits, rfl, hat.analytics⟩
  rw [readNextTraceMsg_idle s analytics nm htrailing htf hat.status hat.flush]
  refine ⟨?_, hsame⟩
  rw [ReadResult.delivered, hend]
  rfl

/-- The parser has been called for each of the messages that are `done`. -/
structure Behind (srcbits : ℕ) (done : List Sent) (bytes : List Byte) (s : SliceFileParser)
    (analytics : Analytics) :
    Prop where
  reads : (∀ q ∈ done, ¬ Refuses srcbits q.msg) → AtMessages srcbits [bytes] s analytics
  stuck : (∃ q ∈ done, Refuses srcbits q.msg) → s.status ≠ .ok

section
variable {s : SliceFileParser} {analytics : Analytics} {done : List Sent} {p : Sent}

theorem Behind.atEnd (nm : NexusMessage) (htrailing : ∀ b ∈ trailing, Idle b)
    (h : Behind srcbits done (bytesOf [] trailing) s analytics) :
    (s.readNextTraceMsg analytics nm).delivered = none ∧
      (s.readNextTraceMsg analytics nm).analytics = analytics := by
  by_cases hrefused : ∃ q ∈ done, Refuses srcbits q.msg
  · rw [readNextTraceMsg_stuck analytics nm (h.stuck hrefused)]
    exact ⟨if_neg fun h => Bool.noConfusion h.2, rfl⟩
  · exact delivered_trailing nm htrailing (h.reads fun q hq hq' => hrefused ⟨q, hq, hq'⟩)

open Classical in
theorem Behind.next (nm : NexusMessage) (hidle : ∀ b ∈ p.idle, Idle b)
    (hmsg : WellFormed srcbits p.msg)
    (hframed : Framed p.msg) (h : Behind srcbits done (bytesOf (p :: stream) trailing) s
      analytics) :
    let r := s.readNextTraceMsg analytics nm
    Behind srcbits (done ++ [p]) (bytesOf stream trailing) r.parser r.analytics ∧
      (r.analytics.overrun = false ↔
        analytics.overrun = false ∧ ((∀ q ∈ done, ¬ Refuses srcbits q.msg) →
          HasCore srcbits p.msg)) ∧
      r.delivered = if ∃ q ∈ done, Refuses srcbits q.msg then none
        else contentOf srcbits p.msg := by
  intro r
  by_cases hrefused : ∃ q ∈ done, Refuses srcbits q.msg
  · have hr : r = ⟨s.status, false, nm, s, analytics⟩ :=
      readNextTraceMsg_stuck analytics nm (h.stuck hrefused)
    obtain ⟨q, hq, hq'⟩ := hrefused
    have hnot {l : List Sent} (hl : q ∈ l) : ¬ ∀ q ∈ l, ¬ Refuses srcbits q.msg :=
      fun h => h q hl hq'
    rw [hr, if_pos ⟨q, hq, hq'⟩]
    refine ⟨⟨fun h => absurd h (hnot (List.mem_append_left _ hq)), fun _ => h.stuck ⟨q, hq, hq'⟩⟩,
      ?_, ?_⟩
    · exact (and_iff_left fun h => absurd h (hnot hq)).symm
    · exact if_neg fun h => Bool.noConfusion h.2
  · have hnone : ∀ q ∈ done, ¬ Refuses srcbits q.msg := fun q hq hq' => hrefused ⟨q, hq, hq'⟩
    obtain ⟨hdelivered, hoverrun, hstuck, hreads⟩ :=
      readNextTraceMsg_sent nm hidle hmsg hframed (h.reads hnone)
    rw [if_neg hrefused]
    refine ⟨⟨fun h => hreads (h p (by simp)), ?_⟩, ?_, hdelivered⟩
    · rintro ⟨q, hq, hq'⟩
      rcases List.mem_append.mp hq with hq | hq
      · exact absurd hq' (hnone q hq)
      · rw [List.mem_singleton.mp hq] at hq'
        exact hstuck hq'
    · rw [hoverrun, forall_prop_of_true hnone]

end

/-! ### Agreement -/

theorem forall_split_cons {α : Type} {P : List α → α → Prop} {a : α} {l : List α} :
    (∀ before x after, a :: l = before ++ x :: after → P before x) ↔
      P [] a ∧ ∀ before x after, l = before ++ x :: after → P (a :: before) x := by
  constructor
  · intro h
    refine ⟨h [] a l rfl, fun before x after hl => h (a :: before) x after ?_⟩
    rw [hl, List.cons_append]
  · rintro ⟨hhead, htail⟩ before x after hl
    cases before with
    | nil =>
      obtain ⟨rfl, -⟩ := List.cons.inj hl
      exact hhead
    | cons b before =>
      obtain ⟨rfl, hrest⟩ := List.cons.inj hl
      exact htail before x after hrest

open Classical in
/-- The two say the same of a message, unless it fits and only one of them passes over it. -/
theorem delivers_iff (hsrc : srcbits ≤ 8) {p : Sent} (hmsg : WellFormed srcbits p.msg)
    (hframed : Framed p.msg)
    {got : List Acquired} (refused : Prop) [Decidable refused] (hstalls : Stalls p.idle → got = [])
    (hgot : ¬ Stalls p.idle → ¬ Oversized srcbits p.msg → got = acquiredOf srcbits p.msg) :
    (if decide (¬ Oversized srcbits p.msg) = true then got else []) =
      (if decide (¬ Oversized srcbits p.msg) = true then
        ((if refused then none else contentOf srcbits p.msg).bind (·.acquired)).toList else []) ↔
      (Fits srcbits p.msg → (Stalls p.idle ↔ refused)) := by
  by_cases hover : Oversized srcbits p.msg
  · simp [hover, Fits]
  · rw [if_pos (decide_eq_true hover), if_pos (decide_eq_true hover)]
    have htold : ((if refused then none else contentOf srcbits p.msg).bind (·.acquired)).toList =
        if refused then [] else acquiredOf srcbits p.msg := by
      split_ifs <;> rfl
    rw [htold]
    by_cases hcode : codeOf p.msg = .dataAcquisition
    · have hfits : Fits srcbits p.msg := ⟨hcode, hover⟩
      have hne : acquiredOf srcbits p.msg ≠ [] := by
        obtain ⟨tagged, dqdata, timestamp, -, -, hone⟩ := hmsg.acquiredOf hsrc hfits
        rw [hone]
        exact List.cons_ne_nil _ _
      rw [forall_prop_of_true hfits]
      by_cases hs : Stalls p.idle
      · rw [hstalls hs, iff_true_left hs]
        by_cases hrefused : refused <;> simp [hrefused, hne.symm]
      · rw [hgot hs hover, iff_false_left hs]
        by_cases hrefused : refused <;> simp [hrefused, hne]
    · have hnil : acquiredOf srcbits p.msg = [] := acquiredOf_eq_nil hframed hcode
      have hempty : got = [] := by
        by_cases hs : Stalls p.idle
        · exact hstalls hs
        · rw [hgot hs hover, hnil]
      rw [hempty, hnil, ite_self]
      exact iff_of_true rfl fun hfits => absurd hfits.1 hcode

open Classical in
/-- From any place in the stream on; `done` are the messages in front of it. -/
theorem agrees_iff_from {ns : NexusStream} {s : SliceFileParser} {analytics : Analytics}
    (nm : NexusMessage)
    (done : List Sent) (hsrc : srcbits ≤ 8) (hidle : ∀ p ∈ stream, ∀ b ∈ p.idle, Idle b)
    (htrailing : ∀ b ∈ trailing, Idle b) (hmsgs : ∀ p ∈ stream, WellFormed srcbits p.msg ∧
      Framed p.msg)
    (hns : ns.Between srcbits) (hs : Behind srcbits done (bytesOf stream trailing) s analytics) :
    let keep := fun msg => decide (¬ Oversized srcbits msg)
    (streamed keep trailing ns stream = returned keep s analytics nm stream ∧
      ∀ r ∈ readMsgs (stream.length + 1) s analytics nm, r.analytics.overrun = false) ↔
      analytics.overrun = false ∧
        ∀ before p after, stream = before ++ p :: after → AgreesAt srcbits (done ++ before) p := by
  intro keep
  induction stream generalizing ns s analytics nm done with
  | nil =>
    obtain ⟨ns', hfeed, -⟩ := hns.feed_idle htrailing
    obtain ⟨hnone, hsame⟩ := hs.atEnd nm htrailing
    have hvacuous : ∀ before p after, [] = before ++ p :: after →
        AgreesAt srcbits (done ++ before) p :=
      fun before p after h => absurd h (by simp)
    rw [streamed, returned, hfeed, hnone, List.length_nil, readMsgs, readMsgs,
      List.forall_mem_singleton, hsame]
    exact ⟨fun h => ⟨h.2, hvacuous⟩, fun h => ⟨rfl, h.1⟩⟩
  | cons p stream ih =>
    obtain ⟨hp, hidle⟩ := List.forall_mem_cons.mp hidle
    obtain ⟨⟨hmsg, hframed⟩, hmsgs⟩ := List.forall_mem_cons.mp hmsgs
    obtain ⟨ms, ns', hfeed, hbetween, hstalls, hms⟩ := hns.feed_sent hsrc hp hmsg hframed
    obtain ⟨hnext, hoverrun, hdelivered⟩ := hs.next nm hp hmsg hframed
    have hrest := ih (s.readNextTraceMsg analytics nm).nm (done ++ [p]) hidle hmsgs hbetween hnext
    have hhead := delivers_iff hsrc hmsg hframed (∃ q ∈ done, Refuses srcbits q.msg)
      (fun h => by rw [hstalls h, List.map_nil]) hms
    simp only [List.append_assoc, List.singleton_append] at hrest
    rw [streamed, hfeed, returned, hdelivered, List.cons.injEq, List.length_cons, readMsgs,
      List.forall_mem_cons, forall_split_cons, List.append_nil]
    constructor
    · rintro ⟨⟨hsame, hparts⟩, hfirst, hresults⟩
      obtain ⟨-, hafter⟩ := hrest.mp ⟨hparts, hresults⟩
      obtain ⟨hinside, hcore⟩ := hoverrun.mp hfirst
      exact ⟨hinside, ⟨hhead.mp hsame, hcore⟩, hafter⟩
    · rintro ⟨hinside, ⟨hdelivers, hcore⟩, hafter⟩
      have hfirst := hoverrun.mpr ⟨hinside, hcore⟩
      obtain ⟨hparts, hresults⟩ := hrest.mpr ⟨hfirst, hafter⟩
      exact ⟨⟨hhead.mpr hdelivers, hparts⟩, hfirst, hresults⟩

/-- The stream and the parser agree exactly if, message by message, a data acquisition message that
fits has among the idle bytes in front of it a byte of zeros behind which none has the
end-of-message bit just when the parser has refused a field before, and no message that the parser
reads has a source without a core. -/
theorem appendByteAndCheckForMessage_agrees_iff (hsrc : srcbits ≤ 8) (nm : NexusMessage)
    (hidle : ∀ p ∈ stream, ∀ b ∈ p.idle, Idle b) (htrailing : ∀ b ∈ trailing, Idle b)
    (hmsgs : ∀ p ∈ stream, WellFormed srcbits p.msg ∧ p.msg.length ≤ 64) :
    Agrees srcbits nm stream trailing ↔
      ∀ before p after, stream = before ++ p :: after → AgreesAt srcbits before p := by
  have hstart : Behind srcbits [] (bytesOf stream trailing)
      (SliceFileParser.init srcbits (bytesOf stream trailing)) {} :=
    ⟨fun _ => ⟨rfl, rfl, rfl, List.flatten_singleton.symm, rfl⟩, fun ⟨_, hq, _⟩ => absurd hq
      List.not_mem_nil⟩
  have hframed : ∀ p ∈ stream, WellFormed srcbits p.msg ∧ Framed p.msg :=
    fun p hp => ⟨(hmsgs p hp).1, (hmsgs p hp).1.framed (hmsgs p hp).2⟩
  exact (agrees_iff_from nm [] hsrc hidle htrailing hframed (between_init srcbits) hstart).trans
    (and_iff_right rfl)

theorem DataAcquisitionSlices.lt {tagged dqdata : ℕ} {timestamp : Option ℕ}
    (h : DataAcquisitionSlices msg tagged dqdata timestamp) :
    tagged < 2 ^ (6 * msg.length) ∧ dqdata < 2 ^ (6 * msg.length) := by
  have hlt : ∀ f : List Byte, f.length ≤ msg.length → fieldValue f < 2 ^ (6 * msg.length) :=
    fun f hf => (fieldValue_lt f).trans_le (Nat.pow_le_pow_right (by decide) (by omega))
  cases h <;> exact ⟨hlt _ (by simp only [List.length_cons, List.length_append]; omega),
    hlt _ (by simp only [List.length_cons, List.length_append]; omega)⟩

theorem not_oversized_of_length (srcbits : ℕ) (hlen : msg.length ≤ 5) :
    ¬ Oversized srcbits msg := by
  rintro ⟨tagged, dqdata, timestamp, hslices, hnot⟩
  have hpow : 2 ^ (6 * msg.length) < 2 ^ 32 := Nat.pow_lt_pow_right (by decide) (by omega)
  obtain ⟨htagged, hdata⟩ := hslices.lt
  exact hnot ⟨(Nat.div_le_self _ _).trans_lt (htagged.trans hpow), hdata.trans hpow⟩

/-- The message that a core without a source field sends when it writes 10 to the tag 10. -/
theorem messageFields_acquisition :
    MessageFields 0 [.fixed 6 7, .var 6 10, .var 6 10] ⟨0, none, .dataAcquisition 10 10⟩ :=
  .mk 0 none (.dataAcquisition 6 10 6 10) fun _ => rfl

theorem wellFormed_acquisition :
    WellFormed 0 [0x1c, 0x29, 0x2b] ∧ [(0x1c : Byte), 0x29, 0x2b].length ≤ 64 :=
  ⟨⟨_, _, messageFields_acquisition, by decide, by decide⟩, by decide⟩

theorem fits_acquisition : Fits 0 [0x1c, 0x29, 0x2b] :=
  ⟨by decide, not_oversized_of_length 0 (by decide)⟩

theorem reads_acquisition : ¬ Refuses 0 [0x1c, 0x29, 0x2b] := by
  rw [← contentOf_eq_none_iff wellFormed_acquisition.1]
  decide

theorem hasCore_acquisition : HasCore 0 [0x1c, 0x29, 0x2b] := by
  rw [hasCore_iff wellFormed_acquisition.1]
  have hcontent : contentOf 0 [0x1c, 0x29, 0x2b] = some ⟨0, none, .dataAcquisition 10 10⟩ := by
    decide
  rintro c hc
  rw [hcontent] at hc
  rw [← Option.some.inj hc]
  decide

theorem not_stalls_of_mark (idle : List Byte) {b : Byte} (hmark : b &&& 0x2 ≠ 0) :
    ¬ Stalls (idle ++ [b]) := by
  rw [stalls_concat]
  rintro (rfl | ⟨hzero, -⟩)
  · exact hmark rfl
  · exact hmark hzero

theorem appendByteAndCheckForMessage_agrees_idle : Agrees 0 NexusMessage.init
    [⟨[0x00, 0x03], [0x1c, 0x29, 0x2b]⟩, ⟨[0x01, 0xff], [0x1c, 0x29, 0x2b]⟩] [0x00] := by
  have hmsg := wellFormed_acquisition
  have hfirst : ∀ b ∈ [0x00, 0x03], Idle b :=
    List.forall_mem_cons.mpr ⟨.inl rfl, List.forall_mem_singleton.mpr (.inr (by decide))⟩
  have hsecond : ∀ b ∈ [0x01, 0xff], Idle b :=
    List.forall_mem_cons.mpr ⟨.inr (by decide), List.forall_mem_singleton.mpr (.inr (by decide))⟩
  have hat : ∀ {idle : List Byte} {before : List Sent}, ¬ Stalls idle →
      (∀ q ∈ before, q.msg = [0x1c, 0x29, 0x2b]) →
        AgreesAt 0 before ⟨idle, [0x1c, 0x29, 0x2b]⟩ := by
    intro idle before hstalls hbefore
    refine ⟨fun _ => iff_of_false hstalls ?_, fun _ => hasCore_acquisition⟩
    rintro ⟨q, hq, hrefuses⟩
    rw [hbefore q hq] at hrefuses
    exact reads_acquisition hrefuses
  refine (appendByteAndCheckForMessage_agrees_iff (by decide) _
    (List.forall_mem_cons.mpr ⟨hfirst, List.forall_mem_singleton.mpr hsecond⟩)
      (List.forall_mem_singleton.mpr (.inl rfl))
    (List.forall_mem_cons.mpr ⟨hmsg, List.forall_mem_singleton.mpr hmsg⟩)).mpr ?_
  rw [forall_split_cons]
  refine ⟨hat (not_stalls_of_mark [0x00] (by decide)) (List.forall_mem_nil _), ?_⟩
  rw [forall_split_cons]
  refine ⟨hat (not_stalls_of_mark [0x01] (by decide)) (List.forall_mem_singleton.mpr rfl), ?_⟩
  exact fun before p after h => absurd h (by simp)

/-- A byte of zeros in front of a data acquisition message. -/
theorem not_agrees_zero : (∀ b ∈ [0x00], Idle b) ∧
    (WellFormed 0 [0x1c, 0x29, 0x2b] ∧ Fits 0 [0x1c, 0x29, 0x2b]) ∧
    ¬ Agrees 0 NexusMessage.init [⟨[0x00], [0x1c, 0x29, 0x2b]⟩] [] := by
  have hidle : ∀ b ∈ [0x00], Idle b := List.forall_mem_singleton.mpr (.inl rfl)
  refine ⟨hidle, ⟨wellFormed_acquisition.1, fits_acquisition⟩, fun hagrees => ?_⟩
  have hstart : Behind 0 [] (bytesOf [⟨[0x00], [0x1c, 0x29, 0x2b]⟩] [])
      (SliceFileParser.init 0 (bytesOf [⟨[0x00], [0x1c, 0x29, 0x2b]⟩] [])) {} :=
    ⟨fun _ => ⟨rfl, rfl, rfl, rfl, rfl⟩, fun ⟨_, hq, _⟩ => absurd hq List.not_mem_nil⟩
  have hmsg : WellFormed 0 [0x1c, 0x29, 0x2b] ∧ Framed [0x1c, 0x29, 0x2b] :=
    ⟨wellFormed_acquisition.1, wellFormed_acquisition.1.framed wellFormed_acquisition.2⟩
  have hat :=
    ((agrees_iff_from NexusMessage.init [] (by decide) (List.forall_mem_singleton.mpr hidle)
      (List.forall_mem_nil _) (List.forall_mem_singleton.mpr hmsg) (between_init 0) hstart).mp
      hagrees).2 [] _ [] rfl
  have hstalls : Stalls [0x00] := ⟨[], [], rfl, List.forall_mem_nil _⟩
  obtain ⟨q, hq, -⟩ := (hat.delivers fits_acquisition).mp hstalls
  exact absurd hq List.not_mem_nil

end TraceDecoder
