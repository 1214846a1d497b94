import TraceDecoder.CallReturns
import TraceDecoder.StepEffects

/-!
# States in lockstep

Two traces that agree on what a state looks at, and go through the same updates, end the call with
the same return code or go on in the same state. What may be different is said by a relation of
traces: it is kept by the updates of the decoder, and by what is done with the output pointers of
the two callers.
-/

namespace TraceDecoder

open EStateM

variable {E : Env}

def Trace.on (t : Trace E) (u : Decoder E → Decoder E) : Trace E :=
  { t with toDecoder := u t.toDecoder }

inductive StateUpdate : (Decoder E → Decoder E) → Prop
  | msg {u : Decoder E → Decoder E} (hu : MsgUpdate u) : StateUpdate u
  | here (f : CoreState → CoreState) (hf : KeepsISR f) : StateUpdate (·.modifyHere f)
  | raise : StateUpdate (·.modifyHere ({ · with enterISR := CRFlag.isInterrupt }))
  | readNew (b : Bool) : StateUpdate ({ · with readNewTraceMessage := b })
  | tolerantError : StateUpdate ({ · with tolerantError := true })
  | reset : StateUpdate fun d => d.resetTrace d.currentCore
  | instruction (instSize : ℕ) (crFlags : CRFlag) (brFlags : BranchFlags) (hsize : instSize = 16 ∨
      instSize = 32) :
      StateUpdate fun d => { d with analytics := d.analytics.updateInstructionInfo d.currentCore instSize crFlags brFlags }

inductive CAUpdate : (Decoder E → Decoder E) → Prop
  | syncAddr (a : ADDRESS) : CAUpdate ({ · with caSyncAddr := a })
  | trace (ca : E.CATrace) : CAUpdate ({ · with caTrace := some ca })
  | rewind : CAUpdate TraceM.rewindCATrace
  | syncCount (n : ℕ) : CAUpdate ({ · with syncCount := n })

inductive Reported : (Decoder E → NexusMessage) → Prop
  | at (a : ADDRESS) : Reported (TraceM.messageAt a)
  | here : Reported TraceM.messageHere
  | noPid : Reported TraceM.messageNoPid
  | atFAddr : Reported TraceM.messageAtFAddr
  | atStop : Reported TraceM.messageAtStop

/-- Traces that agree on what a state looks at, before and behind each update of the decoder. -/
structure Shares (R : Trace E → Trace E → Prop) : Prop where
  similar : ∀ {t t'}, R t t' → Similar t.toDecoder t'.toDecoder
  status : ∀ {t t'}, R t t' → t.status = t'.status
  traceType : ∀ {t t'}, R t t' → t.traceType = t'.traceType
  analytics : ∀ {t t'}, R t t' → t.analytics.status = t'.analytics.status
  caTrace : ∀ {t t'}, R t t' → t.caTrace = t'.caTrace
  caSyncAddr : ∀ {t t'}, R t t' → t.caSyncAddr = t'.caSyncAddr
  syncCount : ∀ {t t'}, R t t' → t.syncCount = t'.syncCount
  readNew : ∀ {t t'}, R t t' → t.readNewTraceMessage = t'.readNewTraceMessage
  closed : ∀ {u t t'}, StateUpdate u → R t t' → R (t.on u) (t'.on u)
  switches : ∀ {ty t t'}, t.traceType = .btm ∨ ty = t.traceType → R t t' →
    R (t.on ({ · with traceType := ty })) (t'.on ({ · with traceType := ty }))
  ca : (∀ {t t'}, R t t' → t.caTrace = none) ∨ ∀ {u t t'}, CAUpdate u → R t t' →
    R (t.on u) (t'.on u)

/-- The traces show the same instruction and the same source line. -/
structure Showing (R : Trace E → Trace E → Prop) (t t' : Trace E) : Prop where
  rel : R t t'
  instruction : t.instructionInfo = t'.instructionInfo
  source : t.sourceInfo = t'.sourceInfo

theorem Shares.showing {R : Trace E → Trace E → Prop} (h : Shares R) : Shares (Showing R) where
  similar hs := h.similar hs.rel
  status hs := h.status hs.rel
  traceType hs := h.traceType hs.rel
  analytics hs := h.analytics hs.rel
  caTrace hs := h.caTrace hs.rel
  caSyncAddr hs := h.caSyncAddr hs.rel
  syncCount hs := h.syncCount hs.rel
  readNew hs := h.readNew hs.rel
  closed hu hs := ⟨h.closed hu hs.rel, hs.instruction, hs.source⟩
  switches hty hs := ⟨h.switches hty hs.rel, hs.instruction, hs.source⟩
  ca := h.ca.imp (fun hnone {_ _} hs => hnone hs.rel) fun hca {_ _ _} hu hs =>
    ⟨hca hu hs.rel, hs.instruction, hs.source⟩

structure Fresh (R : Trace E → Trace E → Prop) (t t' : Trace E) : Prop where
  rel : R t t'
  left : t.instSet = false
  right : t'.instSet = false

theorem Shares.fresh {R : Trace E → Trace E → Prop} (h : Shares R) : Shares (Fresh R) where
  similar hs := h.similar hs.rel
  status hs := h.status hs.rel
  traceType hs := h.traceType hs.rel
  analytics hs := h.analytics hs.rel
  caTrace hs := h.caTrace hs.rel
  caSyncAddr hs := h.caSyncAddr hs.rel
  syncCount hs := h.syncCount hs.rel
  readNew hs := h.readNew hs.rel
  closed hu hs := ⟨h.closed hu hs.rel, hs.left, hs.right⟩
  switches hty hs := ⟨h.switches hty hs.rel, hs.left, hs.right⟩
  ca := h.ca.imp (fun hnone {_ _} hs => hnone hs.rel) fun hca {_ _ _} hu hs =>
    ⟨hca hu hs.rel, hs.left, hs.right⟩

namespace TraceM

def reportICT (want : Want) (locals : Locals) (body : MessageBody) : TraceM E Unit := do
  let addr ← eventAddress want locals body
  reportMessage want (messageAt addr)

def reportStep (want : Want) (locals : Locals) (s : Stepped) (ca : Option (CAInfo × BitVec 32)) :
    TraceM E Unit := do
  onlyIf want.inst (modify (reportInstruction locals s ca))
  onlyIf want.src (modify reportSource)

def endStep (d : DecodedInst) (s : Stepped) : TraceM E Unit := do
  modifyD fun t => { t with
    analytics := t.analytics.updateInstructionInfo t.currentCore d.inst_size s.crFlag s.brFlag }
  let status ← readD (·.analytics.status)
  setStatus status
  onlyIf (status ≠ .ok) do
    setState .error
    ret status
  let count ← readD (·.here.counts.getCurrentCountType)
  if count ≠ .none then ret status else setState .retireMessage

theorem retireInstruction_eq (want : Want) (locals : Locals) (d : DecodedInst) (s : Stepped) :
    retireInstruction (E := E) want locals d s =
      (modifyHere ({ · with currentAddress := s.pc }) >>= fun _ =>
      consumeCATrace d.inst_type >>= fun ca => reportStep want locals s ca >>= fun _ =>
        endStep d s) := by
  unfold retireInstruction reportStep endStep
  simp only [bind_assoc]

def reportSourceOnce (want : Want) : TraceM E Unit :=
  onlyIf want.src (modify fun t => if t.srcSet then t else reportSourceHere t)

end TraceM

open TraceM

structure Speaks (want want' : Want) (R : Trace E → Trace E → Prop) : Prop extends Shares R where
  resetsAll : (∀ {t t'}, R t t' → t.nm.body.tcode ≠ .error) ∨
    ∀ {t t'}, R t t' → R (t.on Decoder.resetTraceAll) (t'.on Decoder.resetTraceAll)
  message : ∀ {m}, Reported m → Matches R R (reportMessage want m) (reportMessage want' m)

/-- The traces stay related when the callers have something reported, each what it wants. -/
structure Lockstep (want want' : Want) (locals locals' : Locals) (R : Trace E → Trace E → Prop) :
    Prop extends Speaks want want' R where
  sourceHere : Coupled (Fresh R) (onlyIf want.src (modify reportSourceHere) : TraceM E Unit)
    (onlyIf want'.src (modify reportSourceHere)) (fun _ _ => R) R
  sourceOnce : Matches R R (reportSourceOnce want) (reportSourceOnce want')
  event : ∀ reason, Matches R R (modify (reportEvent want (some reason)) : TraceM E Unit)
    (modify (reportEvent want' (some reason)))
  ict : ∀ body, body.getCKSRC.isSome → Matches R R (reportICT want locals body)
    (reportICT want' locals' body)
  shows : ∀ {t t'} a, disassembles a t → R t t' → R (disassemble a t) (disassemble a t')
  step : ∀ s ca, Coupled (Showing R) (reportStep want locals s ca) (reportStep want' locals' s ca)
    (fun _ _ => R) R

/-! ### Updates -/

section
variable {R : Trace E → Trace E → Prop} {want want' : Want} {locals locals' : Locals} {α : Type}

theorem matches_ret {rc : DQErr} : Matches R R (ret (E := E) rc) (ret rc) :=
  Matches.throw fun _ _ h => h

variable (h : Shares R)
include h

theorem Shares.modifyD {u : Decoder E → Decoder E} (hu : StateUpdate u) :
    Matches R R (modifyD u) (modifyD u) :=
  Matches.modify fun _ _ hst => h.closed hu hst

theorem Shares.modifyHere (f : CoreState → CoreState) (hf : KeepsISR f) :
    Matches R R (modifyHere (E := E) f) (modifyHere f) :=
  h.modifyD (.here f hf)

theorem Shares.setStatus (rc : DQErr) : Matches R R (setStatus (E := E) rc) (setStatus rc) :=
  h.modifyD (.msg (.status rc))

theorem Shares.setState (s : State) : Matches R R (setState (E := E) s) (setState s) :=
  h.modifyHere _ fun _ _ => rfl

theorem Shares.setReadNew (b : Bool) :
    Matches R R (setReadNewTraceMessage (E := E) b) (setReadNewTraceMessage b) :=
  h.modifyD (.readNew b)

theorem Shares.reset : Matches R R (TraceM.modifyD (E := E) fun d => d.resetTrace d.currentCore)
    (TraceM.modifyD fun d => d.resetTrace d.currentCore) := h.modifyD .reset

theorem Shares.readHere (g : CoreState → α) (hg : ∀ k, g k.decoding = g k) :
    Matches R R (readD (E := E) fun d => g d.here) (readD fun d => g d.here) :=
  Matches.read fun _ _ hst => (h.similar hst).same g hg

/-- What is done with a core does not depend on its pending interrupt. -/
theorem Shares.withHere {pre : Trace E → Trace E → Prop} (hpre : ∀ t t', pre t t' → R t t')
    {f g : CoreState → TraceM E α} {post : α → α → Trace E → Trace E → Prop}
    (hf : ∀ k k', k.decoding = k'.decoding → Coupled (fun t t' => pre t t' ∧ t.here = k) (f k)
      (g k') post R) :
    Coupled pre (readD (·.here) >>= f) (readD (·.here) >>= g) post R :=
  fun t t' hst => hf t.here t'.here (h.similar (hpre t t' hst)).here t t' ⟨hst, rfl⟩

theorem Shares.readBody : Matches R R (readD (E := E) (·.nm.body)) (readD (·.nm.body)) :=
  Matches.read fun _ _ hst => (h.similar hst).body

theorem Shares.fail : Matches R R (fail (E := E)) fail :=
  (h.setStatus _).bind fun _ => (h.setState _).bind fun _ => matches_ret

theorem Shares.retStatus : Matches R R (retStatus (E := E)) retStatus :=
  Matches.bind (Matches.read fun _ _ hst => h.status hst) fun _ => matches_ret

theorem Shares.tracks (t t' : Trace E) :
    Tracks fun d d' => R { t with toDecoder := d } { t' with toDecoder := d' } where
  similar hR := h.similar hR
  closed hu hR := h.closed (.msg hu) hR

theorem Shares.attempt {p : DecoderM E Unit} (hp : ∀ {S : Decoder E → Decoder E → Prop}, Tracks S →
      Matches S S p p) :
    Matches R R (attempt p) (attempt p) := by
  intro t t' hst
  have hrun := hp (h.tracks t t') t.toDecoder t'.toDecoder hst
  unfold TraceM.attempt
  cases hd : p t.toDecoder <;> cases hd' : p t'.toDecoder <;> rw [hd, hd'] at hrun
  · exact ⟨rfl, hrun.2⟩
  · exact hrun.elim
  · exact hrun.elim
  · exact ⟨by rw [hrun.1], hrun.2⟩

theorem Shares.processTraceMessage :
    Matches R R (TraceM.attempt (E := E) DecoderM.processTraceMessage)
      (TraceM.attempt DecoderM.processTraceMessage) :=
  h.attempt fun hS => hS.processTraceMessage

theorem Shares.updateTime (tstype : TsType) :
    Matches R R (TraceM.attempt (E := E) (DecoderM.updateTime tstype))
      (TraceM.attempt (DecoderM.updateTime tstype)) :=
  h.attempt fun hS => hS.updateTime tstype

theorem Shares.failTolerantly : Matches R R (failTolerantly (E := E)) failTolerantly :=
  (h.modifyD .tolerantError).bind fun _ => (Matches.onlyIf fun _ => h.fail).bind
    fun _ => h.reset.bind fun _ => matches_ret

theorem Shares.retire : Matches R R (retire (E := E)) retire :=
  (h.setReadNew _).bind fun _ => (h.setStatus _).bind fun _ => matches_ret

theorem Shares.endCATrace (rc : DQErr) : Matches R R (endCATrace (E := E) rc) (endCATrace rc) := by
  have hend (s : State) : Matches R R (do TraceM.setState (E := E) s; TraceM.setStatus rc; ret rc)
      (do TraceM.setState s; TraceM.setStatus rc; ret rc) :=
    (h.setState s).bind fun _ => (h.setStatus rc).bind fun _ => matches_ret
  exact (Matches.onlyIf fun _ => hend _).bind fun _ => Matches.onlyIf fun _ => hend _

theorem Shares.startDecoding : Matches R R (startDecoding (E := E)) startDecoding :=
  (h.modifyHere _ fun _ _ => rfl).bind fun _ => h.setState _

theorem Shares.setCounts : Matches R R (setCounts (E := E)) setCounts := by
  refine Matches.bind (Matches.read fun t t' hst => ?_)
    fun r => (h.modifyHere _ fun _ _ => rfl).bind fun _ => Matches.pure
  change t.here.counts.setCounts t.nm.body = t'.here.counts.setCounts t'.nm.body
  rw [(h.similar hst).body, (h.similar hst).same (·.counts) fun _ => rfl]

theorem Shares.switchProcess (prevWasSync : Bool) (prevProcessIndex : Option ℕ) (tag : BitVec 2) :
    Matches R R (switchProcess (E := E) prevWasSync prevProcessIndex tag)
      (switchProcess prevWasSync prevProcessIndex tag) := by
  refine (h.readHere (·.currentProcessIndex) fun _ => rfl).bind fun processIndex => ?_
  split_ifs
  · cases prevProcessIndex <;> cases processIndex <;> simp only
    · exact h.setState _
    · exact Matches.onlyIf fun _ => h.setState _
    · exact (h.modifyHere _ fun _ _ => rfl).bind fun _ => h.setState _
    · exact Matches.pure
  · exact Matches.onlyIf fun _ => matches_ret

/-! ### The cycle-accurate trace -/

theorem Shares.withCATrace {f g : Option E.CATrace → TraceM E α}
    (hnone : Matches R R (f none) (g none))
    (hsome : (∀ {u t t'}, CAUpdate u → R t t' → R (t.on u) (t'.on u)) → ∀ ca,
      Matches R R (f (some ca)) (g (some ca))) :
    Matches R R (readD (·.caTrace) >>= f) (readD (·.caTrace) >>= g) := by
  intro t t' hst
  have hca : t.caTrace = t'.caTrace := h.caTrace hst
  have hf : (readD (·.caTrace) >>= f) t = f t.caTrace t := rfl
  have hg : (readD (·.caTrace) >>= g) t' = g t'.caTrace t' := rfl
  rw [hf, hg, ← hca]
  cases hc : t.caTrace with
  | none => exact hnone t t' hst
  | some ca =>
    rcases h.ca with hno | hca
    · exact absurd (hno hst) (by simp [hc])
    · exact hsome hca ca t t' hst

theorem Shares.nextCAAddr (hca : ∀ {u t t'}, CAUpdate u → R t t' → R (t.on u) (t'.on u))
    (savedAddr : ADDRESS) :
    Matches R R (nextCAAddr (E := E) savedAddr) (nextCAAddr savedAddr) := by
  refine Matches.bind (Matches.read fun _ _ hst => h.caSyncAddr hst) fun addr => ?_
  refine (h.readHere (fun k => (k.elfReader E).word addr) fun _ => rfl).bind fun word =>
    (h.setStatus _).bind fun _ => ?_
  split
  · exact Matches.bind (Matches.modify fun _ _ hst => hca (.syncAddr _) hst) fun _ => Matches.pure
  · exact (h.setStatus _).bind fun _ => Matches.pure

theorem Shares.syncCATrace (hca : ∀ {u t t'}, CAUpdate u → R t t' → R (t.on u) (t'.on u))
    (teAddr : ADDRESS) (n : ℕ) (savedAddr : ADDRESS)
    (ca : E.CATrace) : Matches R R (syncCATrace teAddr n savedAddr ca)
    (syncCATrace teAddr n savedAddr ca) := by
  induction n generalizing savedAddr ca with
  | zero => exact Matches.pure
  | succ n ih =>
    refine Matches.bind (Matches.read fun _ _ hst => h.caSyncAddr hst) fun _ => Matches.onlyIf
        fun _ =>
      (h.nextCAAddr hca _).bind fun _ => Matches.onlyIf fun _ => ?_
    exact Matches.bind (Matches.modify fun _ _ hst => hca (.trace _) hst)
      fun _ => (h.endCATrace _).bind fun _ => ih _ _

theorem Shares.alignCATrace (hca : ∀ {u t t'}, CAUpdate u → R t t' → R (t.on u) (t'.on u))
    (teAddr : ADDRESS) (ca : E.CATrace) :
    Matches R R (alignCATrace teAddr ca) (alignCATrace teAddr ca) :=
  Matches.bind (Matches.modify fun _ _ hst => hca (.syncAddr _) hst)
      fun _ => (h.syncCATrace hca _ _ _ _).bind fun _ =>
    Matches.bind (Matches.read fun _ _ hst => h.caSyncAddr hst) fun _ => Matches.onlyIf fun _ =>
      Matches.modify fun _ _ hst => hca .rewind hst

/-- The address of the instruction decides whether the traces are in step. -/
theorem Shares.trySync (hca : ∀ {u t t'}, CAUpdate u → Showing R t t' → Showing R (t.on u)
      (t'.on u)) :
    Matches (Showing R) (Showing R) (trySync (E := E)) trySync := by
  have hset {u : Decoder E → Decoder E} (hu : CAUpdate u) : Matches (Showing R) (Showing R)
      (TraceM.modifyD u) (TraceM.modifyD u) :=
    Matches.modify fun _ _ hst => hca hu hst
  refine Matches.bind (Matches.read fun _ _ hst => h.syncCount hst.rel) fun syncCount =>
    Matches.onlyIf fun _ => ?_
  refine Matches.bind (Matches.read fun _ _ hst => congrArg Instruction.address hst.instruction)
    fun address => ?_
  refine Matches.bind (Matches.read fun _ _ hst => h.caSyncAddr hst.rel) fun caSyncAddr => ?_
  split_ifs
  · exact hset (.syncCount _)
  · exact (hset (.syncCount _)).bind fun _ => Matches.onlyIf fun _ => h.showing.fail

theorem Shares.consumeCATrace (inst_type : InstType) :
    Matches (Showing R) (Showing R) (consumeCATrace (E := E) inst_type)
      (consumeCATrace inst_type) := by
  refine h.showing.withCATrace Matches.pure fun hca ca => ?_
  refine (h.trySync hca).bind fun _ => Matches.bind (Matches.read fun _ _ hst => h.syncCount
    hst.rel) fun syncCount => ?_
  split_ifs
  · refine Matches.bind (Matches.modify fun _ _ hst => hca (.trace _) hst)
        fun _ => (h.showing.endCATrace _).bind fun _ =>
      (h.showing.setStatus _).bind fun _ => ?_
    exact (h.showing.readHere (·.lastCycle.setWidth 32) fun _ => rfl).bind
        fun _ => (h.showing.modifyHere _ fun _ _ => rfl).bind fun _ =>
      Matches.pure
  · exact Matches.pure

end

/-! ### Disassembly -/

theorem disassembles_of_word {t : Trace E} {a : ADDRESS} {w : RV_INST}
    (hw : (t.here.memory E).word a = some w) : disassembles a t := by
  have hprocess (hw : (t.here.elfReader E).word a = some w) :
      ((t.here.currentElfReader.map fun p => (E.processes p).program).bind
        (·.disassemble a)).isSome = true := by
    unfold CoreState.elfReader at hw
    cases hp : t.here.currentElfReader with
    | none =>
      rw [hp] at hw
      cases hw
    | some p =>
      rw [hp] at hw
      exact ((E.processes p).program.disassembles a).trans (by rw [hw]; rfl)
  unfold CoreState.memory at hw
  unfold disassembles disassembler
  cases hkMem : E.kMem with
  | none =>
    rw [hkMem] at hw
    exact hprocess hw
  | some mem =>
    obtain ⟨kStart, kernel⟩ := mem
    rw [hkMem] at hw
    dsimp only [Image.above] at hw ⊢
    split_ifs at hw ⊢
    · exact (kernel.disassembles a).trans (by rw [hw]; rfl)
    · exact hprocess hw

/-- What is shown of an address does not depend on what has been shown before. -/
theorem disassemble_shows {t t' : Trace E} {a : ADDRESS} (hk : t.here.decoding = t'.here.decoding)
    (ht : disassembles a t) :
    (disassemble a t).instructionInfo = (disassemble a t').instructionInfo ∧
    (disassemble a t).sourceInfo = (disassemble a t').sourceInfo := by
  have hprogram : disassembler E t.here a = disassembler E t'.here a :=
    CoreState.same_of_decoding hk (g := (disassembler E · a)) fun _ => rfl
  unfold disassembles at ht
  unfold disassemble
  rw [← hprogram]
  cases hdis : (disassembler E t.here a).bind (·.disassemble a) with
  | none =>
    rw [hdis] at ht
    cases ht
  | some shown => exact ⟨rfl, rfl⟩

end TraceDecoder
