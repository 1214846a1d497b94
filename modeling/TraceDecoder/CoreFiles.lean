import TraceDecoder.CoreLockstep
import TraceDecoder.OutputCalls
import TraceDecoder.Recovery

/-!
# Two files

The messages of several cores stand in one file in any order, those of one core alone in another.
When a message of that core has been read from either file, the two traces are at work on the same
message.
-/

namespace TraceDecoder

open EStateM TraceM

variable {E : Env} {c : ℕ} {want : Want} {locals : Locals}

/-! ### A message of a core -/

/-- The second trace is at work on the same message with another file behind it; the first has come
from `t₀`. -/
structure Alongside (c : ℕ) (t₀ : Trace E) (sfp : SliceFileParser) (t t' : Trace E) : Prop where
  worksOn : t.WorksOn c
  spares : t₀.Spares c t
  beside : ∃ o : Elsewhere E, o.sfp = sfp ∧ t' = t.beside c o

theorem Alongside.localized (c : ℕ) (t₀ : Trace E) (sfp : SliceFileParser) :
    Localized c (Alongside c t₀ sfp) where
  worksOn h := h.worksOn
  beside h := by
    obtain ⟨o, -, hbeside⟩ := h.beside
    exact ⟨o, hbeside⟩
  closed {v t t'} hv h := by
    obtain ⟨o, hsfp, rfl⟩ := h.beside
    obtain ⟨o', hsfp', hbeside⟩ := hv.beside o h.worksOn
    exact ⟨hv.worksOn h.worksOn, h.spares.trans (hv.spares h.worksOn), o', hsfp'.trans hsfp,
      hbeside⟩

def Trace.elsewhere (t : Trace E) : Elsewhere E where
  sfp := t.sfp
  analytics := t.analytics
  msgNum := t.nm.msgNum
  offset := t.nm.offset
  core := t.core
  itcPrint := t.itcPrint
  perfConverter := t.perfConverter
  emitted := t.emitted
  reportedNum := t.messageInfo.msgNum
  reportedOffset := t.messageInfo.offset

theorem beside_elsewhere (c : ℕ) (t : Trace E) : t.beside c t.elsewhere = t := by
  unfold Trace.beside Decoder.beside Trace.elsewhere
  simp only [Function.update_eq_self]
  rfl

theorem Alongside.refl {t : Trace E} (h : t.WorksOn c) : Alongside c t t.sfp t t :=
  ⟨h, Trace.Spares.refl c t, t.elsewhere, rfl, (beside_elsewhere c t).symm⟩

/-! ### Reading a message -/

/-- A message that has been read, with its number and its place in the file. -/
def NexusMessage.holding (nm : NexusMessage) (msg : List Byte) (content : Content)
    (msgNum offset : BitVec 32) : NexusMessage :=
  { nm with
    msgNum := msgNum
    offset := offset
    rawData := SliceFileParser.rawData msg
    coreId := content.coreId
    haveTimestamp := content.timestamp.isSome
    timestamp := content.timestamp.getD 0
    body := content.body }

theorem readNextTraceMsg_holding {srcbits : ℕ} {msg : List Byte} {msgs : List (List Byte)}
    {s : SliceFileParser} {analytics : Analytics}
    {content : Content} (nm : NexusMessage) (hmsg : Framed msg)
    (hcontent : contentOf srcbits msg = some content)
    (hat : AtMessages srcbits (msg :: msgs) s analytics) :
    let r := s.readNextTraceMsg analytics nm
    r.rc = .ok ∧ r.haveMsg = true ∧ r.nm = nm.holding msg content r.nm.msgNum r.nm.offset ∧
      AtMessages srcbits msgs r.parser r.analytics := by
  intro r
  obtain ⟨-, hrc, -, -, hnext⟩ := readNextTraceMsg_framed nm hmsg hat
  have hok : r.rc = .ok := hrc.mpr (by rw [hcontent]; rfl)
  rw [if_neg (by rw [hcontent]; simp)] at hnext
  refine ⟨hok, (SliceFileParser.readNextTraceMsg_cases s analytics nm).2.1.mpr hok, ?_, hnext⟩
  obtain ⟨hstatus, hflush, hsrc, htf, hanalytics⟩ := hat
  have hread := readBinaryMsg_framed s msgs.flatten hmsg hflush (by rw [htf, List.flatten_cons])
  set s₀ : SliceFileParser := { s with
    tf := msgs.flatten, tellg := s.tellg + msg.length, msgOffset :=
      BitVec.ofNat 32 (s.tellg + 1) - 1
    msg := msg, msgSlices := msg.length, bitIndex := 0, eom := false } with hs₀
  have hparse := parseTraceMsg_alone s₀ rfl rfl rfl hmsg.two_le_length
  have hsrc₀ : s₀.srcbits = srcbits := hsrc
  have hmsg₀ : s₀.msg = msg := rfl
  rw [hsrc₀, hmsg₀] at hparse
  have hr : r = s.readNextTraceMsg analytics nm := rfl
  cases hrun : s₀.parseTraceMsg with
  | error e s' =>
    rw [hrun, hcontent] at hparse
    exact absurd hparse.1 (by simp)
  | ok m s' =>
    rw [hrun] at hparse
    obtain ⟨hsame, ⟨hbody, -⟩, bitIndex, eom, hs'⟩ := hparse
    obtain rfl : content = ⟨m.coreId, m.timestamp, m.body⟩ :=
      Option.some.inj (hcontent.symm.trans hsame)
    subst hs'
    simp only [SliceFileParser.readNextTraceMsg, hstatus, hread, hrun,
      Analytics.updateTraceInfo_status, hbody, hanalytics, ne_eq, not_true_eq_false, if_false,
        Bool.false_eq_true, Bool.true_eq_false] at hr
    rw [hr]
    rfl

theorem holding_numbered {nm nm' : NexusMessage} (h : nm'.unset = nm.unset) (msg : List Byte)
    (content : Content) (body : MessageBody)
    (n k n' k' : BitVec 32) : { nm'.holding msg content n' k' with body := body } =
      ({ nm.holding msg content n k with body := body } : NexusMessage).numbered n' k' := by
  simp only [NexusMessage.unset, Prod.mk.injEq] at h
  obtain ⟨haddr, htime, hprv, hpid⟩ := h
  simp only [NexusMessage.holding, NexusMessage.numbered, haddr, htime, hprv, hpid]

def extended (E : Env) (body : MessageBody) : Option MessageBody :=
  if E.linuxTrace then signExtendBody E.bitsPerAddress body else some body

theorem signExtendAddrs_run {t : Trace E} {body : MessageBody}
    (h : extended E t.nm.body = some body) :
    signExtendAddrs t = .ok () (t.on fun d => { d with nm.body := body }) := by
  unfold signExtendAddrs
  unfold extended at h
  cases hlinux : E.linuxTrace with
  | false =>
    rw [hlinux] at h
    obtain rfl : t.nm.body = body := Option.some.inj h
    rfl
  | true =>
    rw [hlinux, if_pos rfl] at h
    rw [onlyIf, if_pos rfl, show readD (·.nm.body) = read (ε := Exit) fun t : Trace E => t.nm.body
      from rfl, read_bind_run, h]
    rfl

theorem signExtendAddrs_refuses {t : Trace E} (h : extended E t.nm.body = none) :
    ∃ t', signExtendAddrs t = .error (.ret .err) t' := by
  unfold signExtendAddrs
  unfold extended at h
  split_ifs at h with hlinux
  rw [onlyIf, if_pos hlinux, show readD (·.nm.body) = read (ε := Exit) fun t : Trace E => t.nm.body
    from rfl, read_bind_run, h]
  exact ⟨_, rfl⟩

def Trace.taking (t : Trace E) (body : MessageBody) : Trace E :=
  t.on fun d => { d with readNewTraceMessage := false, currentCore := d.nm.core, nm.body := body }

theorem switchTraceType_run {t : Trace E} (htype : t.traceType = .htm) :
    switchTraceType t = .ok () t := by
  unfold switchTraceType
  rw [show readD (·.traceType) = read (ε := Exit) fun t : Trace E => t.traceType from rfl,
    read_bind_run, htype]
  rfl

theorem prepare_run {t : Trace E} {body : MessageBody} (htype : t.traceType = .htm)
    (h : extended E t.nm.body = some body) (want : Want) :
    prepare want t = .ok (filterWant E want body) (t.taking body) := by
  have hextend : signExtendAddrs
      (t.on fun d => { d with readNewTraceMessage := false, currentCore := d.nm.core }) =
        .ok () (t.taking body) := signExtendAddrs_run h
  have hbegin : prepare want t = (signExtendAddrs >>= fun _ => switchTraceType >>= fun _ =>
      readD (·.nm.body) >>= fun body =>
      pure (filterWant E want body))
        (t.on fun d => { d with readNewTraceMessage := false, currentCore := d.nm.core }) := rfl
  have hswitch : switchTraceType (t.taking body) = .ok () (t.taking body) :=
    switchTraceType_run htype
  rw [hbegin, bind_ok hextend, bind_ok hswitch]
  rfl

theorem prepare_refuses {t : Trace E} (h : extended E t.nm.body = none) (want : Want) :
    ∃ t', prepare want t = .error (.ret .err) t' := by
  have hbegin : prepare want t = (signExtendAddrs >>= fun _ => switchTraceType >>= fun _ =>
      readD (·.nm.body) >>= fun body =>
      pure (filterWant E want body))
        (t.on fun d => { d with readNewTraceMessage := false, currentCore := d.nm.core }) := rfl
  obtain ⟨t', hfails⟩ :=
    signExtendAddrs_refuses
      (t := t.on fun d => { d with readNewTraceMessage := false, currentCore := d.nm.core }) h
  exact ⟨t', hbegin.trans (bind_error hfails)⟩

theorem tcode_extended {body body' : MessageBody} (h : extended E body = some body') :
    body'.tcode = body.tcode := by
  unfold extended at h
  split_ifs at h
  · cases body <;> simp only [signExtendBody, Option.some.injEq, reduceCtorEq] at h <;> subst h <;>
      rfl
  · cases h
    rfl

section
variable {srcbits : ℕ} {msg : List Byte} {msgs : List (List Byte)} {content : Content} {t : Trace E}

theorem readMessages_framed (hmsg : Framed msg) (hcontent : contentOf srcbits msg = some content)
    (hat : AtMessages srcbits (msg :: msgs) t.sfp t.analytics) (fuel : ℕ) :
    readMessages (fuel + 1) t = .ok () (afterRead t) ∧ (afterRead t).nm.body = content.body := by
  obtain ⟨hrc, hhave, hnm, -⟩ := readNextTraceMsg_holding t.nm hmsg hcontent hat
  refine ⟨?_, congrArg NexusMessage.body hnm⟩
  rw [readMessages_succ, hrc, hhave]
  rfl

/-- A call that reads a message goes on with the work on it. -/
theorem loop_takes {body : MessageBody} (hmsg : Framed msg)
    (hcontent : contentOf srcbits msg = some content)
    (hat : AtMessages srcbits (msg :: msgs) t.sfp t.analytics)
    (hread : t.readNewTraceMessage = true) (htype : t.traceType = .htm)
    (hbody : extended E content.body = some body) (want : Want) (locals : Locals) (fuel n : ℕ) :
    loop (fuel + 1) want locals (n + 1) t =
      (work (filterWant E want body) locals >>= fun _ => loop (fuel + 1) want locals n)
      ((afterRead t).taking body) := by
  obtain ⟨hmessages, hnm⟩ := readMessages_framed hmsg hcontent hat fuel
  rw [loop_of_message hread, bind_ok hmessages]
  exact bind_ok (prepare_run (t := afterRead t) htype (hnm ▸ hbody) want)

theorem loop_refuses (hmsg : Framed msg) (hcontent : contentOf srcbits msg = some content)
    (hat : AtMessages srcbits (msg :: msgs) t.sfp t.analytics)
    (hread : t.readNewTraceMessage = true) (hbody : extended E content.body = none)
    (want : Want) (locals : Locals) (fuel n : ℕ) :
    ∃ t', loop (fuel + 1) want locals (n + 1) t = .error (.ret .err) t' := by
  obtain ⟨hmessages, hnm⟩ := readMessages_framed hmsg hcontent hat fuel
  obtain ⟨t', hfails⟩ := prepare_refuses (t := afterRead t) (hnm ▸ hbody) want
  exact ⟨t', by rw [loop_of_message hread, bind_ok hmessages, bind_error hfails]⟩

theorem worksOn_taking {body : MessageBody} (hmsg : Framed msg)
    (hcontent : contentOf srcbits msg = some content)
    (hat : AtMessages srcbits (msg :: msgs) t.sfp t.analytics)
    (hbody : extended E content.body = some body) (herror : content.body.tcode ≠ .error)
    (hca : t.caTrace = none) (htype : t.traceType = .htm) : ((afterRead t).taking body).WorksOn
      content.coreId.toNat := by
  obtain ⟨-, -, hnm, -⟩ := readNextTraceMsg_holding t.nm hmsg hcontent hat
  have hcore : (afterRead t).nm.core = content.coreId.toNat := by
    change (t.sfp.readNextTraceMsg t.analytics t.nm).nm.core = _
    rw [hnm]
    rfl
  exact ⟨hcore, hcore, (tcode_extended hbody).trans_ne herror, hca, htype⟩

end

/-! ### Two files -/

structure SameCore (c : ℕ) (t s : Trace E) : Prop where
  core : s.core c = t.core c
  itcPrint : s.itcPrint c = t.itcPrint c
  perfConverter : ∀ p, s.perfConverter p c = t.perfConverter p c
  eventConverter : s.eventConverter = t.eventConverter
  caSyncAddr : s.caSyncAddr = t.caSyncAddr
  syncCount : s.syncCount = t.syncCount
  unset : s.nm.unset = t.nm.unset

theorem SameCore.of_spares {k : ℕ} {t t' s : Trace E} (h : SameCore c t s) (hspares : t.Spares k t')
    (hk : c ≠ k) : SameCore c t' s where
  core := h.core.trans (hspares.core c hk).symm
  itcPrint := h.itcPrint.trans (hspares.itcPrint c hk).symm
  perfConverter p := (h.perfConverter p).trans (hspares.perfConverter p c hk).symm
  eventConverter := h.eventConverter.trans hspares.eventConverter.symm
  caSyncAddr := h.caSyncAddr.trans hspares.caSyncAddr.symm
  syncCount := h.syncCount.trans hspares.syncCount.symm
  unset := h.unset.trans hspares.unset.symm

theorem sameCore_beside (c : ℕ) (o : Elsewhere E) (t : Trace E) : SameCore c t (t.beside c o) where
  core := Function.update_self c _ _
  itcPrint := Function.update_self c _ _
  perfConverter _ := Function.update_self c _ _
  eventConverter := rfl
  caSyncAddr := rfl
  syncCount := rfl
  unset := rfl

/-- Traces that have the same of a core and are at work on the same message. -/
theorem SameCore.eq_beside {t s : Trace E} (h : SameCore c t s) (hstatus : s.status = t.status)
    (htype : s.traceType = t.traceType)
    (hanalytics : s.analytics.status = t.analytics.status)
    (hnm : s.nm = t.nm.numbered s.nm.msgNum s.nm.offset)
    (hread : s.readNewTraceMessage = t.readNewTraceMessage)
    (hcurrent : s.currentCore = t.currentCore) (hca : s.caTrace = t.caTrace)
    (hconsumed : s.consumed = t.consumed) (htolerant : s.tolerantError = t.tolerantError)
    (hshown : (s.instructionInfo, s.messageInfo, s.sourceInfo, s.instSet, s.msgSet, s.srcSet) =
      (t.instructionInfo, t.messageInfo, t.sourceInfo, t.instSet, t.msgSet, t.srcSet)) :
      s = t.beside c s.elsewhere := by
  have hperf : (fun p => Function.update (s.perfConverter p) c (t.perfConverter p c)) =
      s.perfConverter := by
    funext p
    rw [← h.perfConverter p, Function.update_eq_self]
  simp only [Prod.mk.injEq] at hshown
  obtain ⟨hinst, hmsg, hsrc, hinstSet, hmsgSet, hsrcSet⟩ := hshown
  have hmessage : t.messageInfo.numbered s.messageInfo.msgNum s.messageInfo.offset =
      s.messageInfo := by
    rw [hmsg]
    rfl
  have hstat : { s.analytics with status := t.analytics.status } = s.analytics :=
    (Analytics.with_status hanalytics).symm
  unfold Trace.beside Decoder.beside Trace.elsewhere
  simp only [← h.core, ← h.itcPrint, ← h.eventConverter, ← h.caSyncAddr, ← h.syncCount, ← hstatus,
    ← htype, ← hnm, ← hread, ← hcurrent, ← hca, ← hconsumed, ← htolerant, ← hinst, ← hsrc,
      ← hinstSet, ← hmsgSet, ← hsrcSet, hperf, hmessage, hstat, Function.update_eq_self]

def ofCore (srcbits c : ℕ) (msgs : List (List Byte)) : List (List Byte) :=
  msgs.filter fun msg => (contentOf srcbits msg).map (·.coreId.toNat) = some c

/-- A message of one of the cores there are that can be read and is not an error message. -/
def Plain (srcbits : ℕ) (msg : List Byte) : Prop :=
  Framed msg ∧ ∃ content, contentOf srcbits msg = some content ∧ content.coreId.toNat <
    DQR_MAXCORES ∧ content.body.tcode ≠ .error

/-- What the traces are doing: both wait for a message; the first is at work on a message of another
core; both are at work on one message of the core. -/
def Turn (c : ℕ) (t s : Trace E) : Prop :=
  (t.readNewTraceMessage = true ∧ s.readNewTraceMessage = true) ∨
  (t.readNewTraceMessage = false ∧ s.readNewTraceMessage = true ∧ ∃ k, c ≠ k ∧ t.WorksOn k) ∨
  (t.readNewTraceMessage = false ∧ t.WorksOn c ∧ ∃ o, s.toDecoder = t.toDecoder.beside c o)

/-- Between two calls: the first trace has the messages of all cores before it, the
second those of one core. -/
structure TwoFiles (srcbits c : ℕ) (msgs : List (List Byte)) (t s : Trace E) : Prop where
  merged : AtMessages srcbits msgs t.sfp t.analytics
  alone : AtMessages srcbits (ofCore srcbits c msgs) s.sfp s.analytics
  same : SameCore c t s
  status : t.status = .ok → s.status = .ok
  caTrace : t.caTrace = none ∧ s.caTrace = none
  traceType : t.traceType = .htm ∧ s.traceType = .htm
  turn : Turn c t s

section
variable {srcbits : ℕ} {msgs : List (List Byte)} {t t₁ s s₁ : Trace E}

theorem AtMessages.of_eq {p p' : SliceFileParser} {a a' : Analytics}
    (h : AtMessages srcbits msgs p a) (hp : p' = p) (ha : a'.status = a.status) :
    AtMessages srcbits msgs p' a' := by
  subst hp
  exact ⟨h.status, h.flush, h.srcbits, h.tf, ha.trans h.analytics⟩

/-- A call that has worked on a message of another core. -/
theorem TwoFiles.of_spares {k : ℕ} {u : Trace E}
    (hmerged : AtMessages srcbits msgs u.sfp u.analytics)
    (halone : AtMessages srcbits (ofCore srcbits c msgs) s.sfp s.analytics) (hsame : SameCore c u s)
    (hk : c ≠ k) (hworks : t₁.WorksOn k)
    (hspares : u.Spares k t₁) (hstatus : s.status = .ok) (hca : s.caTrace = none)
    (htype : s.traceType = .htm)
    (hread : s.readNewTraceMessage = true) : TwoFiles srcbits c msgs t₁ s where
  merged := hmerged.of_eq hspares.sfp hspares.analytics
  alone := halone
  same := hsame.of_spares hspares hk
  status _ := hstatus
  caTrace := ⟨hworks.caTrace, hca⟩
  traceType := ⟨hworks.traceType, htype⟩
  turn := by
    cases ht : t₁.readNewTraceMessage
    · exact .inr (.inl ⟨ht, hread, k, hk, hworks⟩)
    · exact .inl ⟨ht, hread⟩

/-- Two calls that have worked on one message of the core. -/
theorem TwoFiles.of_alongside {u : Trace E} {p : SliceFileParser} {a : Analytics}
    (hmerged : AtMessages srcbits msgs u.sfp u.analytics)
    (halone : AtMessages srcbits (ofCore srcbits c msgs) p a) (h : Alongside c u p t₁ s₁)
    (hs : s.toDecoder = s₁.toDecoder) :
    TwoFiles srcbits c msgs t₁ s := by
  obtain ⟨o, rfl, rfl⟩ := h.beside
  have hsame := sameCore_beside c o t₁
  have hstatus : t₁.analytics.status = .ok := h.spares.analytics.trans hmerged.analytics
  refine ⟨hmerged.of_eq h.spares.sfp h.spares.analytics, ?_, ?_, fun hok => ?_,
    ⟨h.worksOn.caTrace, ?_⟩, ⟨h.worksOn.traceType, ?_⟩, ?_⟩
  · rw [hs]
    exact halone.of_eq rfl (hstatus.trans halone.analytics.symm)
  · exact ⟨hs ▸ hsame.core, hs ▸ hsame.itcPrint, fun p => hs ▸ hsame.perfConverter p, hs ▸
      hsame.eventConverter, hs ▸ hsame.caSyncAddr, hs ▸ hsame.syncCount, hs ▸ hsame.unset⟩
  · rw [hs]
    exact hok
  · rw [hs]
    exact h.worksOn.caTrace
  · rw [hs]
    exact h.worksOn.traceType
  · cases ht : t₁.readNewTraceMessage
    · exact .inr (.inr ⟨ht, h.worksOn, o, hs⟩)
    · refine .inl ⟨ht, ?_⟩
      rw [hs]
      exact ht

end

end TraceDecoder
