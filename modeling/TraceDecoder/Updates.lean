import TraceDecoder.ProcessTraceMessage

/-!
# What a message is processed with

`processTraceMessage` looks at the core at work and at its message only, and changes the decoder by
a few kinds of updates. A relation of decoders that agree on the former and that the latter keep is
kept by `processTraceMessage`.
-/

namespace TraceDecoder

open DecoderM EStateM

variable {E : Env}

def CoreState.decoding (k : CoreState) : CoreState := { k with enterISR := CRFlag.isNone }

theorem CoreState.same_of_decoding {α : Type} {k k' : CoreState} (h : k.decoding = k'.decoding)
    {g : CoreState → α} (hg : ∀ k, g k.decoding = g k) : g k = g k' := by rw [← hg k, h, hg]

/-- The decoders agree on everything a message is processed with. -/
structure Similar (d d' : Decoder E) : Prop where
  nmCore : d.nm.core = d'.nm.core
  body : d.nm.body = d'.nm.body
  haveTimestamp : d.nm.haveTimestamp = d'.nm.haveTimestamp
  timestamp : d.nm.timestamp = d'.nm.timestamp
  here : d.here.decoding = d'.here.decoding
  pIndex : d.pIndex = d'.pIndex
  eventConverter : d.eventConverter = d'.eventConverter
  perfConverter : ∀ p, d.perfConverter p d.nm.core = d'.perfConverter p d'.nm.core

theorem Similar.refl (d : Decoder E) : Similar d d :=
  ⟨rfl, rfl, rfl, rfl, rfl, rfl, rfl, fun _ => rfl⟩

theorem Similar.same {α : Type} {d d' : Decoder E} (h : Similar d d') (g : CoreState → α)
    (hg : ∀ k, g k.decoding = g k) :
    g d.here = g d'.here := CoreState.same_of_decoding h.here hg

def KeepsISR (f : CoreState → CoreState) : Prop :=
  ∀ k x, f { k with enterISR := x } = { f k with enterISR := x }

def Env.Converts (E : Env) : Prop := E.eventConvert = true ∨ ∃ p, (E.processes p).hasCtf = true

/-- The updates of a decoder that `processTraceMessage` is made of. -/
inductive MsgUpdate : (Decoder E → Decoder E) → Prop
  | here (f : CoreState → CoreState) (hf : KeepsISR f) : MsgUpdate fun d => d.modifyHere f
  | nmHere (f : CoreState → CoreState) (hf : KeepsISR f) : MsgUpdate fun d =>
    d.modifyCore d.nm.core f
  | status (rc : DQErr) : MsgUpdate ({ · with status := rc })
  | closeConverter (p : ℕ) (hE : E.Converts) :
      MsgUpdate fun d => { d with eventConverter := Function.update d.eventConverter p false }
  | openConverter (p : ℕ) (rc : DQErr) (hE : E.Converts) :
      MsgUpdate
        fun d => { d with eventConverter := Function.update d.eventConverter p true, status := rc }
  | emit (p : ℕ) (call : ConverterCall) :
      MsgUpdate fun d => { d with emitted := d.emitted ++ [⟨p, d.nm.core, d.here.lastTime, call⟩] }
  | perf (p : ℕ) (state : E.PerfState) (b : Bool) :
      MsgUpdate fun d => { d with
        perfConverter :=
          Function.update d.perfConverter p (Function.update (d.perfConverter p) d.nm.core state)
        consumed := b }
  | consumed (b : Bool) : MsgUpdate ({ · with consumed := b })
  | ckdata1 (a : ADDRESS) : MsgUpdate fun d => { d with nm.body := d.nm.body.setCkdata1 a }

/-- A relation of decoders that agree on the core at work, kept by each update. -/
structure Tracks (R : Decoder E → Decoder E → Prop) : Prop where
  similar : ∀ {d d'}, R d d' → Similar d d'
  closed : ∀ {u d d'}, MsgUpdate u → R d d' → R (u d) (u d')

theorem Tracks.diagonal {P : Decoder E → Prop} (h : ∀ {u d}, MsgUpdate u → P d → P (u d)) :
    Tracks fun d d' => d = d' ∧ P d where
  similar := by
    rintro d _ ⟨rfl, -⟩
    exact Similar.refl d
  closed := by
    rintro u d _ hu ⟨rfl, hd⟩
    exact ⟨rfl, h hu hd⟩

theorem Matches.keeps {P : Decoder E → Prop} {α : Type} {p : DecoderM E α}
    (h : Matches (fun d d' => d = d' ∧ P d) (fun d d' => d = d' ∧ P d) p p) : Keeps P p := by
  intro d hd
  have hrun := h d d ⟨rfl, hd⟩
  cases hp : p d <;> rw [hp] at hrun
  · exact hrun.2.2
  · exact hrun.2.2

/-- What `processTraceMessage` leaves alone. -/
theorem MsgUpdate.frame {u : Decoder E → Decoder E} (hu : MsgUpdate u) (d : Decoder E) :
    (u d).sfp = d.sfp ∧ (u d).readNewTraceMessage = d.readNewTraceMessage ∧ (u d).currentCore =
      d.currentCore := by
  cases hu <;> exact ⟨rfl, rfl, rfl⟩

section
variable {R : Decoder E → Decoder E → Prop} {p : ℕ} {pIndex : Option ℕ} {pid : BitVec 32}
    {a : ADDRESS}

theorem Tracks.modify (hR : Tracks R) {u : Decoder E → Decoder E} (hu : MsgUpdate u) :
    Matches R R (modify u : DecoderM E Unit) (modify u) :=
  Matches.modify fun _ _ h => hR.closed hu h

theorem Tracks.read (hR : Tracks R) {α : Type} {g : Decoder E → α}
    (hg : ∀ {d d'}, Similar d d' → g d = g d') :
    Matches R R (EStateM.read g : DecoderM E α) (EStateM.read g) :=
  Matches.read fun _ _ h => hg (hR.similar h)

theorem converts (h : E.eventConvert ∨ (E.processes p).hasCtf) : E.Converts :=
  h.imp id fun h => ⟨p, h⟩

theorem Matches.throw_self {α : Type} {rc : DQErr} :
    Matches R R (throw rc : DecoderM E α) (throw rc) :=
  Matches.throw fun _ _ h => h

theorem keepsISR_lastFaddr (a : ADDRESS) : KeepsISR ({ · with lastFaddr := a }) := fun _ _ => rfl

theorem keepsISR_currentAddress (a : ADDRESS) : KeepsISR ({ · with currentAddress := a }) :=
  fun _ _ => rfl

variable (hR : Tracks R)
include hR

theorem Tracks.pc : Matches R R (DecoderM.pc (E := E)) DecoderM.pc :=
  hR.read fun h => h.same (·.currentAddress) fun _ => rfl

theorem Tracks.faddr : Matches R R (DecoderM.faddr (E := E)) DecoderM.faddr :=
  hR.read fun h => h.same (·.lastFaddr) fun _ => rfl

theorem Tracks.setPc : Matches R R (setPc (E := E) a) (setPc a) :=
  hR.modify (.here _ (keepsISR_currentAddress a))

theorem Tracks.setFaddr : Matches R R (setFaddr (E := E) a) (setFaddr a) :=
  hR.modify (.here _ (keepsISR_lastFaddr a))

theorem Tracks.xorFaddr : Matches R R (xorFaddr (E := E) a) (xorFaddr a) :=
  hR.faddr.bind fun _ => Matches.onlyIf fun _ => hR.setFaddr

theorem Tracks.setPcToFaddr : Matches R R (setPcToFaddr (E := E)) setPcToFaddr :=
  hR.faddr.bind fun _ => hR.setPc

theorem Tracks.xorPcFaddr (source dest : ADDRESS) :
    Matches R R (xorPcFaddr (E := E) source dest) (xorPcFaddr source dest) := by
  refine hR.faddr.bind fun _ => ?_
  split_ifs
  · exact hR.setPc.bind fun _ => hR.pc.bind fun _ => hR.setFaddr
  · exact hR.setPc

theorem Tracks.updateTime (tstype : TsType) :
    Matches R R (updateTime (E := E) tstype) (updateTime tstype) :=
  (hR.read fun h => h.haveTimestamp).bind fun _ => (hR.read fun h => h.timestamp).bind fun _ =>
    Matches.onlyIf fun _ => hR.modify (.here _ fun _ _ => rfl)

theorem Tracks.setPrevMsgWasSync (b : Bool) :
    Matches R R (setPrevMsgWasSync (E := E) b) (setPrevMsgWasSync b) :=
  hR.modify (.nmHere ({ · with prevMsgWasSync := b }) fun _ _ => rfl)

theorem Tracks.setCurrentPrv (prv : BitVec 8) :
    Matches R R (setCurrentPrv (E := E) prv) (setCurrentPrv prv) :=
  hR.modify (.nmHere ({ · with currentPrv := prv }) fun _ _ => rfl)

theorem Tracks.processPidPriv (v prv : BitVec 8) :
    Matches R R (processPidPriv (E := E) pid v prv) (processPidPriv pid v prv) :=
  (hR.modify (.nmHere ({ · with
    currentPid := pid
    currentPrv := v <<< 4 ||| prv
    currentProcessIndex := findProcess E pid
    currentElfReader := findProcess E pid }) fun _ _ => rfl)).bind fun _ => Matches.pure

theorem Tracks.emit (call : ConverterCall) : Matches R R (emit (E := E) p call) (emit p call) :=
  hR.modify (.emit p call)

theorem Tracks.openEventConverter (hE : E.Converts) :
    Matches R R (openEventConverter (E := E) p) (openEventConverter p) := by
  refine (hR.read fun h => by rw [h.eventConverter]).bind fun _ => Matches.onlyIf fun _ =>
    Matches.bind ?_ fun _ => Matches.onlyIf fun _ => Matches.throw_self
  refine (hR.modify (.closeConverter p hE)).bind fun _ => ?_
  split_ifs
  · exact (hR.modify (.openConverter p _ hE)).bind fun _ => Matches.pure
  · exact Matches.pure

theorem Tracks.openEmit (hE : E.Converts) (call : ConverterCall) :
    Matches R R (do DecoderM.openEventConverter (E := E) p; DecoderM.emit p call)
      (do DecoderM.openEventConverter (E := E) p; DecoderM.emit p call) :=
  (hR.openEventConverter hE).bind fun _ => hR.emit call

theorem Tracks.convertEvent (call : ConverterCall) :
    Matches R R (convertEvent (E := E) pIndex call) (convertEvent pIndex call) := by
  cases pIndex with
  | none => exact Matches.pure
  | some p => exact Matches.onlyIf fun hE => hR.openEmit (.inl hE) call

theorem Tracks.nextAddr : Matches R R (DecoderM.nextAddr (E := E) a) (DecoderM.nextAddr a) := by
  refine (hR.read fun h => h.same (callFrom E · a) fun _ => rfl).bind fun call => ?_
  cases call with
  | some call => exact Matches.pure
  | none => exact (hR.modify (.status _)).bind fun _ => Matches.throw_self

theorem Tracks.convertCtf (crFlags : CRFlag) (source dest : ADDRESS) :
    Matches R R (convertCtf (E := E) p crFlags source dest) (convertCtf p crFlags source dest) := by
  unfold DecoderM.convertCtf
  split_ifs
  · exact hR.emit _
  · exact hR.emit _
  · exact Matches.throw_self

theorem Tracks.switchContext (tag : BitVec 8) :
    Matches R R (switchContext (E := E) pIndex pid tag) (switchContext pIndex pid tag) := by
  unfold DecoderM.switchContext
  split_ifs
  · exact hR.processPidPriv _ _
  · exact (Matches.onlyIf fun _ => hR.setCurrentPrv _).bind fun _ => Matches.pure

/-! ### In-circuit trace -/

theorem Tracks.faddr_convertEvent (call : ADDRESS → ConverterCall) :
    Matches R R (DecoderM.faddr (E := E) >>= fun a => DecoderM.convertEvent pIndex (call a))
      (DecoderM.faddr >>= fun a => DecoderM.convertEvent pIndex (call a)) :=
  hR.faddr.bind fun _ => hR.convertEvent _

theorem Tracks.pc_convertEvent (call : ADDRESS → ConverterCall) :
    Matches R R (DecoderM.pc (E := E) >>= fun a => DecoderM.convertEvent pIndex (call a))
      (DecoderM.pc >>= fun a => DecoderM.convertEvent pIndex (call a)) :=
  hR.pc.bind fun _ => hR.convertEvent _

/-- The events that are converted with one address, once it is set. -/
theorem Tracks.event {setAddr tail : DecoderM E Unit} (hset : Matches R R setAddr setAddr)
    (htail : Matches R R tail tail) :
    Matches R R (do setAddr; DecoderM.setPcToFaddr; tail)
      (do setAddr; DecoderM.setPcToFaddr; tail) :=
  hset.bind fun _ => hR.setPcToFaddr.bind fun _ => htail

theorem Tracks.context (call : ADDRESS → ConverterCall) (tag : BitVec 8) :
    Matches R R
      (DecoderM.switchContext (E := E) pIndex pid tag >>= fun pIndex =>
        DecoderM.pc >>= fun a => DecoderM.convertEvent pIndex (call a))
      (DecoderM.switchContext pIndex pid tag >>= fun pIndex =>
        DecoderM.pc >>= fun a => DecoderM.convertEvent pIndex (call a)) :=
  (hR.switchContext tag).bind fun _ => hR.pc_convertEvent call

theorem Tracks.processICT (m : ICT) :
    Matches R R (processICT (E := E) pIndex pid m) (processICT pIndex pid m) := by
  unfold DecoderM.processICT
  cases ICTReason.ofCode m.cksrc with
  | none => exact Matches.throw_self
  | some src =>
    cases src <;> simp only
    case extTrig | watchpoint =>
      split_ifs
      · exact hR.xorFaddr.bind fun _ => hR.faddr_convertEvent _
      · exact hR.event hR.xorFaddr (hR.faddr_convertEvent _)
      · exact Matches.throw_self
    case inferableCall =>
      split_ifs
      · refine hR.event hR.xorFaddr ?_
        cases pIndex with
        | none => exact Matches.pure
        | some p =>
          exact Matches.onlyIf fun hE => hR.pc.bind fun _ => hR.nextAddr.bind fun _ =>
            (hR.modify (.ckdata1 _)).bind fun _ => (Matches.onlyIf fun _ => hR.emit _).bind fun _ =>
              Matches.onlyIf fun _ => hR.openEmit (converts hE) _
      · refine (hR.xorPcFaddr _ _).bind fun _ => ?_
        cases pIndex with
        | none => exact Matches.pure
        | some p =>
          exact Matches.onlyIf fun hE => hR.pc.bind fun _ => hR.faddr.bind fun _ => hR.nextAddr.bind
              fun _ =>
            (Matches.onlyIf fun _ => hR.convertCtf _ _ _).bind fun _ => hR.openEmit (converts hE) _
      · exact Matches.throw_self
    case exception | interrupt | pcSample =>
      split_ifs
      · exact hR.event hR.xorFaddr (hR.pc_convertEvent _)
      · exact Matches.throw_self
    case context =>
      split_ifs
      · exact hR.event hR.xorFaddr (hR.context _ _)
      · exact Matches.throw_self
    case control =>
      split_ifs
      · cases pIndex with
        | none => exact Matches.pure
        | some p => exact (hR.read fun h => by rw [h.eventConverter]).bind fun _ =>
          Matches.onlyIf fun _ => hR.emit _
      · exact hR.event hR.xorFaddr (hR.pc_convertEvent _)
      · exact Matches.throw_self

theorem Tracks.processICTWS (m : ICT) :
    Matches R R (processICTWS (E := E) pIndex pid m) (processICTWS pIndex pid m) := by
  unfold DecoderM.processICTWS
  cases ICTReason.ofCode m.cksrc with
  | none => exact Matches.throw_self
  | some src =>
    cases src <;> simp only
    case extTrig | watchpoint =>
      split_ifs
      · exact hR.setFaddr.bind fun _ => hR.faddr_convertEvent _
      · exact hR.event hR.setFaddr (hR.faddr_convertEvent _)
      · exact Matches.throw_self
    case inferableCall =>
      split_ifs
      · refine hR.event hR.setFaddr ?_
        cases pIndex with
        | none => exact Matches.pure
        | some p =>
          exact Matches.onlyIf fun hE => hR.pc.bind fun _ => hR.nextAddr.bind fun _ =>
            (hR.modify (.ckdata1 _)).bind fun _ => (Matches.onlyIf fun _ => hR.emit _).bind fun _ =>
              Matches.onlyIf fun _ => hR.faddr.bind fun _ => hR.openEmit (converts hE) _
      · refine hR.setPc.bind fun _ => hR.pc.bind fun _ => hR.setFaddr.bind fun _ => ?_
        cases pIndex with
        | none => exact Matches.pure
        | some p =>
          exact Matches.onlyIf fun hE => hR.pc.bind fun _ => hR.faddr.bind fun _ => hR.nextAddr.bind
              fun _ =>
            Matches.onlyIf fun _ => (hR.convertCtf _ _ _).bind fun _ => Matches.onlyIf
              fun _ => hR.openEmit (converts hE) _
      · exact Matches.throw_self
    case exception | interrupt | pcSample =>
      split_ifs
      · exact hR.event hR.setFaddr (hR.pc_convertEvent _)
      · exact Matches.throw_self
    case context =>
      split_ifs
      · exact hR.event hR.setFaddr (hR.context _ _)
      · exact Matches.throw_self
    case control =>
      split_ifs
      · exact hR.convertEvent _
      · exact hR.event hR.setFaddr (hR.pc_convertEvent _)
      · exact Matches.throw_self

/-! ### Messages -/

theorem Tracks.convertPerf (idTag data : BitVec 32) :
    Matches R R (convertPerf (E := E) pIndex idTag data) (convertPerf pIndex idTag data) := by
  cases pIndex with
  | none => exact Matches.pure
  | some p =>
    refine Matches.onlyIf fun _ => (hR.read fun h => ?_).bind
        fun _ => (hR.modify (.perf p _ _)).bind fun _ =>
      Matches.onlyIf fun _ => Matches.throw_self
    rw [h.perfConverter, h.nmCore, h.same (·.lastTime) fun _ => rfl]

theorem Tracks.requireNoBranchCounts :
    Matches R R (requireNoBranchCounts (E := E)) requireNoBranchCounts :=
  (hR.read fun h => h.same (·.counts.getCurrentCountType) fun _ => rfl).bind fun _ => Matches.onlyIf
    fun _ => Matches.throw_self

theorem Tracks.requireNoCounts : Matches R R (requireNoCounts (E := E)) requireNoCounts :=
  (hR.read fun h => h.same (·.counts.getCurrentCountType) fun _ => rfl).bind fun _ => Matches.onlyIf
    fun _ => Matches.throw_self

theorem Tracks.processSync : Matches R R (processSync (E := E) a) (processSync a) :=
  hR.requireNoCounts.bind fun _ => (hR.updateTime _).bind fun _ => hR.event hR.setFaddr
    ((hR.modify (.nmHere (fun k => { k with counts := k.counts.resetStack.resetCounts })
      fun _ _ => rfl)).bind fun _ => hR.setPrevMsgWasSync _)

theorem Tracks.processUAddr : Matches R R (processUAddr (E := E) a) (processUAddr a) :=
  (hR.updateTime _).bind fun _ => hR.event hR.xorFaddr (hR.setPrevMsgWasSync _)

theorem Tracks.processTCode (body : MessageBody) :
    Matches R R (processTCode (E := E) pIndex pid body) (processTCode pIndex pid body) := by
  cases body with
  | error =>
    exact (hR.updateTime _).bind fun _ => hR.setFaddr.bind fun _ => hR.setPc.bind
      fun _ => hR.setPrevMsgWasSync _
  | dataAcquisition => exact (hR.updateTime _).bind fun _ => hR.convertPerf _ _
  | ownership =>
    refine (hR.updateTime _).bind fun _ => ?_
    split_ifs
    · exact hR.setCurrentPrv _
    · exact (hR.processPidPriv _ _).bind fun _ => Matches.pure
    · exact Matches.throw_self
  | resourceFull =>
    exact (Matches.onlyIf fun _ => hR.requireNoBranchCounts).bind fun _ => (hR.updateTime _).bind
        fun _ =>
      hR.setPrevMsgWasSync _
  | directBranch | correlation => exact (hR.updateTime _).bind fun _ => hR.setPrevMsgWasSync _
  | indirectBranch => exact hR.processUAddr
  | indirectHistory => exact hR.requireNoBranchCounts.bind fun _ => hR.processUAddr
  | sync | directBranchWS | indirectBranchWS | indirectHistoryWS => exact hR.processSync
  | ict m => exact (hR.updateTime _).bind fun _ => (hR.setPrevMsgWasSync _).bind fun _ =>
    hR.processICT m
  | ictWS m => exact (hR.updateTime _).bind fun _ => (hR.setPrevMsgWasSync _).bind fun _ =>
    hR.processICTWS m
  | auxAccessWrite | other => exact Matches.throw_self

/-- **A message** is processed in the same way by decoders that agree on the core at work. -/
theorem Tracks.processTraceMessage :
    Matches R R (processTraceMessage (E := E)) processTraceMessage := by
  intro d d' h
  have h' := hR.closed (.consumed false) h
  have hsim := hR.similar h'
  have hindex : d.pIndex = d'.pIndex := hsim.pIndex
  have hbody : d.nm.body = d'.nm.body := hsim.body
  rw [processTraceMessage_eq, processTraceMessage_eq, hindex, hbody]
  exact hR.processTCode _ _ _ h'

end

end TraceDecoder
