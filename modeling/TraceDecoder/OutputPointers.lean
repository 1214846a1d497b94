import TraceDecoder.LockstepCalls

/-!
# Null output pointers

A caller passes null for what it does not want to know. What is decoded does not depend on it: the
runs of two callers differ in what is printed and in the pending interrupt of a core, which is
cleared when an instruction is reported.
-/

namespace TraceDecoder

open EStateM TraceM Isa

variable {E : Env}

def Decoder.blind (d : Decoder E) : Decoder E :=
  { d with core := fun c => (d.core c).decoding, itcPrint := fun _ => E.newItcQueue }

def Decoder.withQueues (d : Decoder E) (queues : ℕ → E.ItcQueue) : Decoder E :=
  { d with itcPrint := queues }

/-- An update that treats the print queues and pending interrupts as something to pass on. -/
structure Blindly (u : Decoder E → Decoder E) : Prop where
  blind : ∀ d, (u d).blind = (u d.blind).blind
  queues : ∀ d q, u (d.withQueues q) = (u d).withQueues q

theorem blind_modifyCore {f : CoreState → CoreState}
    (hf : ∀ k, (f k).decoding = (f k.decoding).decoding) (d : Decoder E) (c : ℕ) :
    (d.modifyCore c f).blind = (d.blind.modifyCore c f).blind := by
  have hcore : (fun i => (Function.update d.core c (f (d.core c)) i).decoding) =
      fun i => (Function.update (fun j => (d.core j).decoding) c (f (d.core c).decoding)
        i).decoding := by
    funext i
    by_cases hi : i = c
    · subst hi
      rw [Function.update_self, Function.update_self]
      exact hf _
    · rw [Function.update_of_ne hi, Function.update_of_ne hi]
      rfl
  exact congrArg (fun core => { d with core := core, itcPrint := fun _ => E.newItcQueue }) hcore

theorem KeepsISR.decoding {f : CoreState → CoreState} (hf : KeepsISR f) (k : CoreState) :
    (f k).decoding = (f k.decoding).decoding := by
  unfold CoreState.decoding
  rw [hf k CRFlag.isNone]

namespace Blindly

theorem modifyHere {f : CoreState → CoreState}
    (hf : ∀ k, (f k).decoding = (f k.decoding).decoding) :
    Blindly (E := E) (·.modifyHere f) :=
  ⟨fun d => blind_modifyCore hf d d.currentCore, fun _ _ => rfl⟩

theorem of_msgUpdate {u : Decoder E → Decoder E} (hu : MsgUpdate u) : Blindly u := by
  cases hu with
  | here f hf => exact modifyHere hf.decoding
  | nmHere f hf => exact ⟨fun d => blind_modifyCore hf.decoding d d.nm.core, fun _ _ => rfl⟩
  | _ => exact ⟨fun _ => rfl, fun _ _ => rfl⟩

theorem of_stateUpdate {u : Decoder E → Decoder E} (hu : StateUpdate u) : Blindly u := by
  cases hu with
  | msg hu => exact of_msgUpdate hu
  | here f hf => exact modifyHere hf.decoding
  | raise => exact modifyHere fun _ => rfl
  | reset =>
    refine ⟨fun d => ?_, fun _ _ => rfl⟩
    have hcore :=
      blind_modifyCore (f := fun k => { k.reset E.isBareMetal with counts :=
        k.counts.resetCounts.resetStack }) (fun _ => rfl)
      d d.currentCore
    exact congrArg (fun d' : Decoder E => { d' with status := .ok, readNewTraceMessage := true })
      hcore
  | _ => exact ⟨fun _ => rfl, fun _ _ => rfl⟩

theorem of_caUpdate {u : Decoder E → Decoder E} (hu : CAUpdate u) : Blindly u := by
  cases hu <;> exact ⟨fun _ => rfl, fun _ _ => rfl⟩

theorem resetTraceAll : Blindly (E := E) Decoder.resetTraceAll := ⟨fun _ => rfl, fun _ _ => rfl⟩

theorem traceType (ty : TraceType) : Blindly (E := E) ({ · with traceType := ty }) :=
  ⟨fun _ => rfl, fun _ _ => rfl⟩

end Blindly

/-- What two callers have in common: they want the same instructions in all calls; they want the
same messages in all calls; both or neither of them want what is known of an event. -/
structure Terms where
  inst : Prop
  msg : Prop
  addr : Prop

structure Terms.Kept (terms : Terms) (want want' : Want) : Prop where
  inst : terms.inst → want.inst = want'.inst
  msg : terms.msg → want.msg = want'.msg
  addr : terms.addr → (want.inst || want.src) = (want'.inst || want'.src)

def SameInstruction (terms : Terms) (i i' : Instruction) : Prop :=
  { i with CRFlag := CRFlag.isNone } = { i' with CRFlag := CRFlag.isNone } ∧ (terms.inst → i = i')

/-- What two callers have been told in a call, and the decoders behind it. -/
structure Alike (terms : Terms) (want want' : Want) (t t' : Trace E) : Prop where
  decoder : t.toDecoder.blind = t'.toDecoder.blind
  pending : terms.inst → t.core = t'.core
  queues : terms.msg → t.itcPrint = t'.itcPrint
  source : want.src → t.instSet → t.srcSet
  source' : want'.src → t'.instSet → t'.srcSet
  inst : want.inst → want'.inst → t.instSet = t'.instSet ∧
    (t.instSet → SameInstruction terms t.instructionInfo t'.instructionInfo)
  src : want.src → want'.src → t.srcSet = t'.srcSet ∧ (t.srcSet → t.sourceInfo = t'.sourceInfo)
  msg : terms.msg → want.msg → t.msgSet = t'.msgSet ∧
    (terms.addr → t.msgSet → t.messageInfo = t'.messageInfo)

theorem Decoder.same_of_blind {α : Type} {d d' : Decoder E} (h : d.blind = d'.blind)
    (g : Decoder E → α) (hg : ∀ d, g d.blind = g d) :
    g d = g d' := by rw [← hg d, h, hg]

theorem Decoder.eq_of_blind {d d' : Decoder E} (h : d.blind = d'.blind) (hcore : d.core = d'.core) :
    d' = d.withQueues d'.itcPrint := by
  have hd' : { d'.blind with core := d.core, itcPrint := d'.itcPrint } = d' := by
    rw [hcore]
    rfl
  rw [← hd', ← h]
  rfl

section
variable {terms : Terms} {want want' : Want} {t t' : Trace E}

theorem similar_of_blind {d d' : Decoder E} (h : d.blind = d'.blind) : Similar d d' where
  nmCore := Decoder.same_of_blind h (·.nm.core) fun _ => rfl
  body := Decoder.same_of_blind h (·.nm.body) fun _ => rfl
  haveTimestamp := Decoder.same_of_blind h (·.nm.haveTimestamp) fun _ => rfl
  timestamp := Decoder.same_of_blind h (·.nm.timestamp) fun _ => rfl
  here := Decoder.same_of_blind h (·.here.decoding) fun _ => rfl
  pIndex := Decoder.same_of_blind h (·.pIndex) fun _ => rfl
  eventConverter := Decoder.same_of_blind h (·.eventConverter) fun _ => rfl
  perfConverter p := Decoder.same_of_blind h (fun d => d.perfConverter p d.nm.core) fun _ => rfl

theorem Alike.on (h : Alike terms want want' t t') {u : Decoder E → Decoder E} (hu : Blindly u) :
    Alike terms want want' (t.on u) (t'.on u) where
  decoder := Decoder.same_of_blind h.decoder (fun d => (u d).blind) fun d => (hu.blind d).symm
  pending hinst := by
    have hd := Decoder.eq_of_blind h.decoder (h.pending hinst)
    change (u t.toDecoder).core = (u t'.toDecoder).core
    rw [hd, hu.queues]
    rfl
  queues hmsg := by
    have hqueue (d : Decoder E) : (u d).itcPrint = d.itcPrint := by
      change (u (d.withQueues d.itcPrint)).itcPrint = d.itcPrint
      rw [hu.queues]
      rfl
    exact (hqueue _).trans ((h.queues hmsg).trans (hqueue _).symm)
  source := h.source
  source' := h.source'
  inst := h.inst
  src := h.src
  msg := h.msg

theorem Alike.shares : Shares (Alike (E := E) terms want want') where
  similar h := similar_of_blind h.decoder
  status h := Decoder.same_of_blind h.decoder (·.status) fun _ => rfl
  traceType h := Decoder.same_of_blind h.decoder (·.traceType) fun _ => rfl
  analytics h := Decoder.same_of_blind h.decoder (·.analytics.status) fun _ => rfl
  caTrace h := Decoder.same_of_blind h.decoder (·.caTrace) fun _ => rfl
  caSyncAddr h := Decoder.same_of_blind h.decoder (·.caSyncAddr) fun _ => rfl
  syncCount h := Decoder.same_of_blind h.decoder (·.syncCount) fun _ => rfl
  readNew h := Decoder.same_of_blind h.decoder (·.readNewTraceMessage) fun _ => rfl
  closed hu h := h.on (Blindly.of_stateUpdate hu)
  switches _ h := h.on (Blindly.traceType _)
  ca := .inr fun hu h => h.on (Blindly.of_caUpdate hu)

/-! ### Messages -/

theorem Reported.blind {m : Decoder E → NexusMessage} (hm : Reported m) (d : Decoder E) :
    m d = m d.blind := by
  cases hm <;> rfl

/-- Whether a message is kept from the caller, and the print queues behind it. -/
def printing (m : NexusMessage) (t : Trace E) : Bool × (ℕ → E.ItcQueue) :=
  if t.consumed then (true, t.itcPrint) else processITCPrintData m t.itcPrint

theorem report_eq (m : NexusMessage) (t : Trace E) :
    report m t = { t with
      toDecoder := t.toDecoder.withQueues (printing m t).2, messageInfo := m, msgSet := t.msgSet ||
          !(printing m t).1 } := by
  unfold report printing
  split_ifs <;> simp [Decoder.withQueues]

theorem Alike.printing (h : Alike terms want want' t t') (hmsg : terms.msg) {m m' : NexusMessage}
    (hm : ∃ a, m' = { m with currentAddress := a }) : printing m t = printing m' t' := by
  obtain ⟨a, rfl⟩ := hm
  have hconsumed : t.consumed = t'.consumed :=
    Decoder.same_of_blind h.decoder (·.consumed) fun _ => rfl
  unfold TraceDecoder.printing
  rw [hconsumed, h.queues hmsg]
  rfl

/-- What the callers are told of a message; the addresses may be different if only one of them wants
to know of the event. -/
theorem Alike.report (h : Alike terms want want' t t') (hkept : terms.Kept want want')
    {m m' : NexusMessage}
    (hm : ∃ a, m' = { m with currentAddress := a }) (haddr : terms.addr → m = m') :
    Alike terms want want' (if want.msg then TraceM.report m t else t) (if want'.msg
      then TraceM.report m' t' else t') := by
  have hblind (b : Bool) (m : NexusMessage) (t : Trace E) :
      (if b then TraceM.report m t else t).toDecoder.blind = t.toDecoder.blind ∧
        (if b then TraceM.report m t else t).core = t.core ∧
      (if b then TraceM.report m t else t).instSet = t.instSet ∧
        (if b then TraceM.report m t else t).srcSet = t.srcSet ∧
      (if b then TraceM.report m t else t).instructionInfo = t.instructionInfo ∧
      (if b then TraceM.report m t else t).sourceInfo = t.sourceInfo := by
    split_ifs
    · rw [report_eq]
      exact ⟨rfl, rfl, rfl, rfl, rfl, rfl⟩
    · exact ⟨rfl, rfl, rfl, rfl, rfl, rfl⟩
  obtain ⟨hd, hcore, hinst, hsrc, hinstInfo, hsrcInfo⟩ := hblind want.msg m t
  obtain ⟨hd', hcore', hinst', hsrc', hinstInfo', hsrcInfo'⟩ := hblind want'.msg m' t'
  refine ⟨?_, ?_, ?_, ?_, ?_, ?_, ?_, ?_⟩
  · rw [hd, hd', h.decoder]
  · intro hterm
    rw [hcore, hcore', h.pending hterm]
  · intro hterm
    have hprinting := h.printing hterm hm
    rw [← hkept.msg hterm]
    split_ifs
    · rw [report_eq, report_eq]
      change (TraceDecoder.printing m t).2 = (TraceDecoder.printing m' t').2
      rw [hprinting]
    · exact h.queues hterm
  · rw [hinst, hsrc]
    exact h.source
  · rw [hinst', hsrc']
    exact h.source'
  · intro hw hw'
    rw [hinst, hinst', hinstInfo, hinstInfo']
    exact h.inst hw hw'
  · intro hw hw'
    rw [hsrc, hsrc', hsrcInfo, hsrcInfo']
    exact h.src hw hw'
  · intro hterm hw
    have hprinting := h.printing hterm hm
    rw [← hkept.msg hterm, if_pos hw, if_pos hw, report_eq, report_eq]
    dsimp only
    rw [hprinting, (h.msg hterm hw).1]
    exact ⟨rfl, fun haddr' _ => haddr haddr'⟩

/-! ### Instructions and source lines -/

theorem Alike.shown (h : Alike terms want want' t t') {t₁ t₁' : Trace E}
    (hd : t₁.toDecoder = t.toDecoder)
    (hd' : t₁'.toDecoder = t'.toDecoder) (hm : t₁.msgSet = t.msgSet ∧ t₁.messageInfo =
      t.messageInfo)
    (hm' : t₁'.msgSet = t'.msgSet ∧ t₁'.messageInfo = t'.messageInfo)
    (source : want.src → t₁.instSet → t₁.srcSet) (source' : want'.src → t₁'.instSet → t₁'.srcSet)
    (inst : want.inst → want'.inst → t₁.instSet = t₁'.instSet ∧
    (t₁.instSet → SameInstruction terms t₁.instructionInfo t₁'.instructionInfo))
    (src : want.src → want'.src → t₁.srcSet = t₁'.srcSet ∧ (t₁.srcSet → t₁.sourceInfo =
      t₁'.sourceInfo)) :
    Alike terms want want' t₁ t₁' where
  decoder := by rw [hd, hd', h.decoder]
  pending hterm := by rw [hd, hd', h.pending hterm]
  queues hterm := by rw [hd, hd', h.queues hterm]
  source := source
  source' := source'
  inst := inst
  src := src
  msg hterm hw := by
    rw [hm.1, hm'.1, hm.2, hm'.2]
    exact h.msg hterm hw

theorem SameInstruction.refl (terms : Terms) (i : Instruction) : SameInstruction terms i i :=
  ⟨rfl, fun _ => rfl⟩

theorem disassembles_alike {d d' : Trace E} (h : d.toDecoder.blind = d'.toDecoder.blind)
    (a : ADDRESS) : disassembles a d = disassembles a d' :=
  Decoder.same_of_blind h (fun d => ((disassembler E d.here a).bind (·.disassemble a)).isSome)
    fun _ => rfl

theorem Alike.shows (h : Alike terms want want' t t') {a : ADDRESS} (ha : disassembles a t) :
    Alike terms want want' (disassemble a t) (disassemble a t') := by
  obtain ⟨hinst, hsrc⟩ := disassemble_shows (similar_of_blind h.decoder).here ha
  obtain ⟨hi, hs, hm, hmi⟩ := disassemble_reports a t
  obtain ⟨hi', hs', hm', hmi'⟩ := disassemble_reports a t'
  refine h.shown (disassemble_toDecoder a t) (disassemble_toDecoder a t') ⟨hm, hmi⟩ ⟨hm', hmi'⟩ ?_
    ?_ ?_ ?_
  · rw [hi, hs]
    exact h.source
  · rw [hi', hs']
    exact h.source'
  · intro hw hw'
    rw [hi, hi', hinst]
    exact ⟨(h.inst hw hw').1, fun _ => SameInstruction.refl terms _⟩
  · intro hw hw'
    rw [hs, hs', hsrc]
    exact ⟨(h.src hw hw').1, fun _ => rfl⟩

theorem hasSource_alike {d d' : Trace E} (h : d.toDecoder.blind = d'.toDecoder.blind) :
    hasSource d = hasSource d' := by
  unfold hasSource
  rw [disassembles_alike h, Decoder.same_of_blind h (·.here.currentProcessIndex.isSome)
    fun _ => rfl, Decoder.same_of_blind h (·.here.currentAddress) fun _ => rfl]

/-- Both callers are shown what is at the current address. -/
theorem shown_here {d d' : Trace E} (h : d.toDecoder.blind = d'.toDecoder.blind)
    (hsource : hasSource d) :
    (disassemble d.here.currentAddress d).toDecoder.blind =
    (disassemble d'.here.currentAddress d').toDecoder.blind ∧
      (disassemble d.here.currentAddress d).instructionInfo =
      (disassemble d'.here.currentAddress d').instructionInfo ∧
      (disassemble d.here.currentAddress d).sourceInfo =
      (disassemble d'.here.currentAddress d').sourceInfo := by
  have hdis : disassembles d.here.currentAddress d := by
    unfold hasSource at hsource
    exact (Bool.and_eq_true_iff.mp hsource).2
  have haddr : d.here.currentAddress = d'.here.currentAddress :=
    Decoder.same_of_blind h (·.here.currentAddress) fun _ => rfl
  rw [← haddr]
  refine ⟨?_, disassemble_shows (similar_of_blind h).here hdis⟩
  rw [disassemble_toDecoder, disassemble_toDecoder, h]

theorem reportSource_alike {d d' : Trace E} (h : d.toDecoder.blind = d'.toDecoder.blind)
    (hsrc : d.sourceInfo = d'.sourceInfo) :
    (reportSource d).sourceInfo = (reportSource d').sourceInfo := by
  unfold reportSource
  dsimp only
  rw [hsrc, Decoder.same_of_blind h (·.currentCore) fun _ => rfl, Decoder.same_of_blind h
    (·.here.currentPid) fun _ => rfl, Decoder.same_of_blind h (·.here.currentPrv) fun _ => rfl]

/-- The source line of one caller may be shown when no instruction has been. -/
theorem Alike.sourceHere (h : Alike terms want want' t t') {b b' : Bool}
    (hfresh : b → t.instSet = false) (hfresh' : b' → t'.instSet = false)
    (hsame : want.src → want'.src → b = b') :
    Alike terms want want' (if b then reportSourceHere t else t)
      (if b' then reportSourceHere t' else t') := by
  have hkeeps (b : Bool) {t : Trace E} : (if b then reportSourceHere t else t).instSet = t.instSet ∧
      (if b then reportSourceHere t else t).toDecoder = t.toDecoder ∧
      (if b then reportSourceHere t else t).msgSet = t.msgSet ∧
        (if b then reportSourceHere t else t).messageInfo = t.messageInfo := by
    obtain ⟨hi, -, hm, hmi⟩ := disassemble_reports t.here.currentAddress t
    split_ifs
    · rw [reportSourceHere_eq]
      split_ifs
      · exact ⟨hi, disassemble_toDecoder _ t, hm, hmi⟩
      · exact ⟨rfl, rfl, rfl, rfl⟩
    · exact ⟨rfl, rfl, rfl, rfl⟩
  have hsource {want : Want} {b : Bool} {t : Trace E} (hfresh : b → t.instSet = false)
      (hold : want.src → t.instSet → t.srcSet) : want.src →
        (if b then reportSourceHere t else t).instSet →
        (if b then reportSourceHere t else t).srcSet := by
    rw [(hkeeps b).1]
    split_ifs with hb
    · rw [hfresh hb]
      exact fun _ hfalse => absurd hfalse (by simp)
    · exact hold
  obtain ⟨hi, hd, hm⟩ := hkeeps b (t := t)
  obtain ⟨hi', hd', hm'⟩ := hkeeps b' (t := t')
  refine h.shown hd hd' hm hm' (hsource hfresh h.source) (hsource hfresh' h.source') ?_ ?_
  · intro hw hw'
    obtain ⟨hset, hsame⟩ := h.inst hw hw'
    rw [hi, hi']
    refine ⟨hset, fun hshown => ?_⟩
    have hb : ¬ b := fun hb => by simp [hfresh hb] at hshown
    have hb' : ¬ b' := fun hb => by simp [hset, hfresh' hb] at hshown
    rw [if_neg hb, if_neg hb']
    exact hsame hshown
  · intro hw hw'
    obtain rfl := hsame hw hw'
    split_ifs
    · rw [reportSourceHere_eq, reportSourceHere_eq, ← hasSource_alike h.decoder]
      split_ifs with hhas
      · obtain ⟨hd, -, hs⟩ := shown_here h.decoder hhas
        exact ⟨rfl, fun _ => reportSource_alike hd hs⟩
      · exact h.src hw hw'
    · exact h.src hw hw'

/-! ### Events -/

theorem word_of_disassembles {t : Trace E} {a : ADDRESS} (ht : disassembles a t) :
    ∃ w, (t.here.memory E).word a = some w := by
  have hprocess (ht : ((t.here.currentElfReader.map fun p => (E.processes p).program).bind
      (·.disassemble a)).isSome = true) : ∃ w, (t.here.elfReader E).word a = some w := by
    unfold CoreState.elfReader
    cases hp : t.here.currentElfReader with
    | none =>
      rw [hp] at ht
      cases ht
    | some p =>
      rw [hp] at ht
      exact Option.isSome_iff_exists.mp (((E.processes p).program.disassembles a).symm.trans ht)
  unfold disassembles disassembler at ht
  unfold CoreState.memory
  cases hkMem : E.kMem with
  | none =>
    rw [hkMem] at ht
    exact hprocess ht
  | some mem =>
    obtain ⟨kStart, kernel⟩ := mem
    rw [hkMem] at ht
    dsimp only [Image.above] at ht ⊢
    split_ifs at ht ⊢
    · exact Option.isSome_iff_exists.mp ((kernel.disassembles a).symm.trans ht)
    · exact hprocess ht

/-- The flags of an event are known where there is a program. -/
theorem eventStatus_eq (hE : E.archSize = 32 ∨ E.archSize = 64) (want : Want) (reason : ICTReason)
    (t : Trace E) :
    eventStatus want (some reason) t = t.status := by
  obtain ⟨xlen, hxlen⟩ : ∃ xlen : Xlen, E.archSize = xlen.archSize :=
    hE.elim (fun h => ⟨.rv32, h⟩) fun h => ⟨.rv64, h⟩
  unfold eventStatus
  by_cases hdis : disassembles t.here.currentAddress t
  · obtain ⟨w, hw⟩ := word_of_disassembles hdis
    obtain ⟨d, hdecoded⟩ := exists_decoded (t.here.memory E) xlen hw
    have hflags : (getCRBRFlags E t.here (some reason)).isNone = false := by
      cases reason <;> simp [getCRBRFlags, hw, hxlen, hdecoded.decodes]
    simp [hflags]
  · simp [hdis]

theorem reportEvent_messages (want : Want) (cksrc : Option ICTReason) (t : Trace E) :
    (reportEvent want cksrc t).msgSet = t.msgSet ∧ (reportEvent want cksrc t).messageInfo =
      t.messageInfo := by
  obtain ⟨-, -, hm, hmi⟩ := disassemble_reports t.here.currentAddress t
  rw [reportEvent_eq]
  cases want.inst <;> cases want.src <;> cases hasSource t <;>
    first | exact ⟨rfl, rfl⟩ | exact ⟨hm, hmi⟩

theorem reportEventInstruction_alike {d d' : Trace E} (h : d.toDecoder.blind = d'.toDecoder.blind)
    (cksrc : Option ICTReason) (hinst : d.instructionInfo = d'.instructionInfo) :
    (reportEventInstruction cksrc d).instructionInfo =
    (reportEventInstruction cksrc d').instructionInfo := by
  unfold reportEventInstruction
  dsimp only
  rw [hinst, Decoder.same_of_blind h (·.currentCore) fun _ => rfl, Decoder.same_of_blind h
    (·.here.currentPid) fun _ => rfl, Decoder.same_of_blind h (·.here.currentPrv) fun _ => rfl,
      Decoder.same_of_blind h (·.here.lastTime) fun _ => rfl,
    Decoder.same_of_blind h (fun d => getCRBRFlags E d.here cksrc) fun _ => rfl]

/-- Each caller is told of an event what it wants to know. -/
theorem Alike.event (hE : E.archSize = 32 ∨ E.archSize = 64) (h : Alike terms want want' t t')
    (reason : ICTReason) :
    Alike terms want want' (reportEvent want (some reason) t)
      (reportEvent want' (some reason) t') := by
  have hdecoder (want : Want) (t : Trace E) : (reportEvent want (some reason) t).toDecoder =
      t.toDecoder := by
    rw [reportEvent_toDecoder, eventStatus_eq hE]
  have hsource (want : Want) (t : Trace E) (hold : want.src → t.instSet → t.srcSet) :
      want.src → (reportEvent want (some reason) t).instSet →
        (reportEvent want (some reason) t).srcSet := by
    intro hsrc
    rw [reportEvent_eq]
    simp only [hsrc, Bool.or_true, Bool.true_and, if_true]
    split_ifs
    · exact fun _ => rfl
    · exact fun _ => rfl
    · exact hold hsrc
  refine h.shown (hdecoder want t) (hdecoder want' t') (reportEvent_messages _ _ t)
    (reportEvent_messages _ _ t') (hsource want t h.source) (hsource want' t' h.source') ?_ ?_
  · intro hw hw'
    rw [reportEvent_eq, reportEvent_eq, ← hasSource_alike h.decoder]
    simp only [hw, hw', Bool.true_or, Bool.true_and, if_true]
    split_ifs with hhas hsrc hsrc' hsrc'
    all_goals first
      | exact h.inst hw hw'
      | obtain ⟨hd, hi, -⟩ := shown_here h.decoder hhas
        have hsame := reportEventInstruction_alike hd (some reason) hi
        exact ⟨rfl, fun _ => hsame ▸ SameInstruction.refl terms _⟩
  · intro hw hw'
    rw [reportEvent_eq, reportEvent_eq, ← hasSource_alike h.decoder]
    simp only [hw, hw', Bool.or_true, Bool.true_and, if_true]
    have hevent (b : Bool) (d : Trace E) :
        (reportSource ((if b then reportEventInstruction (some reason) else id) d)).sourceInfo =
          (reportSource d).sourceInfo := by
      cases b <;> rfl
    cases hhas : hasSource t with
    | false => exact h.src hw hw'
    | true =>
      obtain ⟨hd, -, hs⟩ := shown_here h.decoder hhas
      exact ⟨rfl, fun _ => (hevent want.inst _).trans ((reportSource_alike hd hs).trans
        (hevent want'.inst _).symm)⟩

/-! ### Instructions -/

theorem reportStep_run (want : Want) (locals : Locals) (s : Stepped)
    (ca : Option (CAInfo × BitVec 32)) (t : Trace E) :
    reportStep want locals s ca t = .ok ()
      ((if want.src then reportSource else id) ((if want.inst then reportInstruction locals s ca
      else id) t)) := by
  unfold reportStep onlyIf
  cases want.inst <;> cases want.src <;> rfl

theorem clearISR_blind (d : Decoder E) :
    (d.modifyHere ({ · with enterISR := CRFlag.isNone })).blind = d.blind := by
  have hcore :
      (fun c => (Function.update d.core d.currentCore { d.core d.currentCore with enterISR :=
      CRFlag.isNone } c).decoding) = fun c => (d.core c).decoding := by
    funext c
    by_cases hc : c = d.currentCore
    · subst hc
      rw [Function.update_self]
      rfl
    · rw [Function.update_of_ne hc]
  exact congrArg (fun core => { d with core := core, itcPrint := fun _ => E.newItcQueue }) hcore

theorem instructionAt_alike {d d' : Decoder E} (h : d.blind = d'.blind) (locals : Locals)
    (s : Stepped) (ca : Option (CAInfo × BitVec 32))
    (i : Instruction) (hinst : terms.inst → d.core = d'.core) :
    SameInstruction terms (instructionAt locals s ca d.currentCore d.here i)
      (instructionAt locals s ca d'.currentCore d'.here i) := by
  have hcore : d.currentCore = d'.currentCore :=
    Decoder.same_of_blind h (·.currentCore) fun _ => rfl
  constructor
  · exact Decoder.same_of_blind h
      (fun d => { instructionAt locals s ca d.currentCore d.here i with CRFlag := CRFlag.isNone })
        fun d => by cases ca <;> rfl
  · intro hterm
    have hhere : d.here = d'.here := by rw [Decoder.here, Decoder.here, hinst hterm, hcore]
    rw [hcore, hhere]

/-- Each caller is told of an instruction what it wants to know. -/
theorem Alike.step (hkept : terms.Kept want want') (h : Showing (Alike terms want want') t t')
    (locals : Locals) (s : Stepped) (ca : Option (CAInfo × BitVec 32)) :
    Alike terms want want'
      ((if want.src then reportSource else id)
      ((if want.inst then reportInstruction locals s ca else id) t))
      ((if want'.src then reportSource else id) ((if want'.inst then reportInstruction locals s ca
        else id) t')) := by
  obtain ⟨h, hinfo, hsrcInfo⟩ := h
  have hblind (b b' : Bool) (t : Trace E) :
      ((if b' then reportSource else id) ((if b then reportInstruction locals s ca else id)
        t)).toDecoder.blind = t.toDecoder.blind := by
    cases b <;> cases b' <;> first | rfl | exact clearISR_blind t.toDecoder
  have hmsg (b b' : Bool) (t : Trace E) :
      ((if b' then reportSource else id) ((if b then reportInstruction locals s ca else id)
        t)).msgSet = t.msgSet ∧
      ((if b' then reportSource else id) ((if b then reportInstruction locals s ca else id)
        t)).messageInfo = t.messageInfo ∧
      ((if b' then reportSource else id) ((if b then reportInstruction locals s ca else id)
        t)).itcPrint = t.itcPrint := by
    cases b <;> cases b' <;> exact ⟨rfl, rfl, rfl⟩
  obtain ⟨hm, hmi, hq⟩ := hmsg want.inst want.src t
  obtain ⟨hm', hmi', hq'⟩ := hmsg want'.inst want'.src t'
  refine ⟨?_, ?_, ?_, ?_, ?_, ?_, ?_, ?_⟩
  · rw [hblind, hblind, h.decoder]
  · intro hterm
    have hcore : t.core = t'.core := h.pending hterm
    have hcurrent : t.currentCore = t'.currentCore :=
      Decoder.same_of_blind h.decoder (·.currentCore) fun _ => rfl
    have hstep (b b' : Bool) (t : Trace E) :
        ((if b' then reportSource else id) ((if b then reportInstruction locals s ca else id)
          t)).core = if b then Function.update t.core t.currentCore
            { t.core t.currentCore with enterISR := CRFlag.isNone } else t.core := by
      cases b <;> cases b' <;> rfl
    rw [hstep, hstep, ← hkept.inst hterm, hcore, hcurrent]
  · intro hterm
    rw [hq, hq', h.queues hterm]
  · intro hw
    rw [hw]
    exact fun _ => rfl
  · intro hw
    rw [hw]
    exact fun _ => rfl
  · intro hw hw'
    have hset (b' : Bool) (t : Trace E) :
        ((if b' then reportSource else id) ((if true then reportInstruction locals s ca else id)
          t)).instSet = true ∧
        ((if b' then reportSource else id) ((if true then reportInstruction locals s ca else id)
          t)).instructionInfo = instructionAt locals s ca t.currentCore t.here
            t.instructionInfo := by
      cases b' <;> exact ⟨rfl, rfl⟩
    rw [hw, hw', (hset want.src t).1, (hset want'.src t').1, (hset want.src t).2,
      (hset want'.src t').2, ← hinfo]
    exact ⟨rfl, fun _ => instructionAt_alike h.decoder locals s ca _ h.pending⟩
  · intro hw hw'
    have hset (b : Bool) (t : Trace E) :
        ((if true then reportSource else id) ((if b then reportInstruction locals s ca else id)
          t)).srcSet = true ∧
        ((if true then reportSource else id) ((if b then reportInstruction locals s ca else id)
          t)).sourceInfo = (reportSource t).sourceInfo := by
      cases b with
      | true => exact ⟨rfl, reportSource_alike (clearISR_blind t.toDecoder) rfl⟩
      | false => exact ⟨rfl, rfl⟩
    rw [hw, hw', (hset want.inst t).1, (hset want'.inst t').1, (hset want.inst t).2,
      (hset want'.inst t').2]
    exact ⟨rfl, fun _ => reportSource_alike h.decoder hsrcInfo⟩
  · intro hterm hw
    rw [hm, hm', hmi, hmi']
    exact h.msg hterm hw

/-! ### Calls -/

theorem Alike.speaks (hkept : terms.Kept want want') :
    Speaks want want' (Alike (E := E) terms want want') where
  toShares := Alike.shares
  resetsAll := .inr fun h => h.on Blindly.resetTraceAll
  message {m} hm t t' h := by
    rw [reportMessage_run, reportMessage_run]
    have hsame : m t.toDecoder = m t'.toDecoder :=
      Decoder.same_of_blind h.decoder m fun d => (hm.blind d).symm
    exact ⟨rfl, h.report hkept ⟨(m t.toDecoder).currentAddress, by rw [hsame]⟩ fun _ => hsame⟩

theorem reportICT_alike (hE : E.archSize = 32 ∨ E.archSize = 64) (hkept : terms.Kept want want')
    (locals : Locals) {body : MessageBody} (hreason : body.getCKSRC.isSome) :
    Matches (Alike (E := E) terms want want') (Alike terms want want') (reportICT want locals body)
      (reportICT want' locals body) := by
  obtain ⟨reason, hsrc⟩ := Option.isSome_iff_exists.mp hreason
  have hmessage {a a' : ADDRESS} (haddr : terms.addr → a = a') :
      Matches (Alike (E := E) terms want want') (Alike terms want want')
        (reportMessage want (messageAt a)) (reportMessage want' (messageAt a')) := by
    intro t t' h
    rw [reportMessage_run, reportMessage_run]
    have hsame : messageAt a' t.toDecoder = messageAt a' t'.toDecoder :=
      Decoder.same_of_blind h.decoder (messageAt a') fun _ => rfl
    refine ⟨rfl, h.report hkept ⟨a', hsame.symm⟩ fun hterm => ?_⟩
    rw [haddr hterm, hsame]
  intro t t' h
  have haddr : t.here.currentAddress = t'.here.currentAddress :=
    Decoder.same_of_blind h.decoder (·.here.currentAddress) fun _ => rfl
  have hfaddr : t.here.lastFaddr = t'.here.lastFaddr :=
    Decoder.same_of_blind h.decoder (·.here.lastFaddr) fun _ => rfl
  unfold reportICT
  rw [bind_run, bind_run, eventAddress_run, eventAddress_run]
  by_cases hcontrol : body.getCKSRC = some .control ∧ body.getCKDF = 0
  · rw [if_pos hcontrol, if_pos hcontrol]
    exact hmessage (fun _ => haddr) t t' h
  · rw [if_neg hcontrol, if_neg hcontrol]
    by_cases htrig : (body.getCKSRC = some .extTrig ∨ body.getCKSRC = some .watchpoint) ∧
      body.getCKDF = 0
    · rw [if_pos htrig, if_pos htrig]
      exact hmessage (fun _ => hfaddr) t t' h
    · rw [if_neg htrig, if_neg htrig, hsrc]
      refine hmessage (fun hterm => ?_) _ _ (h.event hE reason)
      rw [hkept.addr hterm, haddr]

theorem Alike.lockstep (hE : E.archSize = 32 ∨ E.archSize = 64) (hkept : terms.Kept want want')
    (locals : Locals) :
    Lockstep want want' locals locals (Alike (E := E) terms want want') where
  toSpeaks := Alike.speaks hkept
  sourceHere t t' h := by
    rw [onlyIf_run, onlyIf_run]
    exact h.rel.sourceHere (fun _ => h.left) (fun _ => h.right) fun hw hw' => hw.trans hw'.symm
  sourceOnce t t' h := by
    rw [reportSourceOnce_run, reportSourceOnce_run]
    have hfresh {want : Want} {t : Trace E} (hsource : want.src → t.instSet → t.srcSet)
        (hb : want.src && !t.srcSet) : t.instSet = false := by
      obtain ⟨hw, hset⟩ := Bool.and_eq_true_iff.mp hb
      by_contra hinst
      simp [hsource hw (by simpa using hinst)] at hset
    refine ⟨rfl, h.sourceHere (hfresh h.source) (hfresh h.source') fun hw hw' => ?_⟩
    rw [hw, hw', (h.src hw hw').1]
  event reason t t' h := ⟨rfl, h.event hE reason⟩
  ict body hreason := reportICT_alike hE hkept locals hreason
  shows a ha h := h.shows ha
  step s ca t t' h := by
    rw [reportStep_run, reportStep_run]
    exact Alike.step hkept h locals s ca

end

end TraceDecoder
