import TraceDecoder.LockstepCalls

/-!
# One core among others

What is done with a message changes what is kept of the message's core, and does not depend on what
is kept of the other cores.
-/

namespace TraceDecoder

open EStateM TraceM

variable {E : Env}

def NexusMessage.numbered (m : NexusMessage) (msgNum offset : BitVec 32) : NexusMessage :=
  { m with msgNum := msgNum, offset := offset }

def NexusMessage.unset (m : NexusMessage) : ADDRESS × TIMESTAMP × BitVec 8 × BitVec 32 :=
  (m.currentAddress, m.time, m.prv, m.pid)

/-- What there is besides one core, the message at work and what is reported. -/
structure Elsewhere (E : Env) where
  sfp : SliceFileParser
  analytics : Analytics
  msgNum : BitVec 32
  offset : BitVec 32
  core : ℕ → CoreState
  itcPrint : ℕ → E.ItcQueue
  perfConverter : ℕ → ℕ → E.PerfState
  emitted : List Emitted
  reportedNum : BitVec 32
  reportedOffset : BitVec 32

def Decoder.beside (c : ℕ) (o : Elsewhere E) (d : Decoder E) : Decoder E :=
  { d with
    sfp := o.sfp
    analytics := { o.analytics with status := d.analytics.status }
    nm := d.nm.numbered o.msgNum o.offset
    core := Function.update o.core c (d.core c)
    itcPrint := Function.update o.itcPrint c (d.itcPrint c)
    perfConverter := fun p => Function.update (o.perfConverter p) c (d.perfConverter p c)
    emitted := o.emitted }

def Trace.beside (c : ℕ) (o : Elsewhere E) (t : Trace E) : Trace E :=
  { t with toDecoder := t.toDecoder.beside c o, messageInfo :=
    t.messageInfo.numbered o.reportedNum o.reportedOffset }

structure Trace.WorksOn (c : ℕ) (t : Trace E) : Prop where
  currentCore : t.currentCore = c
  nmCore : t.nm.core = c
  noError : t.nm.body.tcode ≠ .error
  caTrace : t.caTrace = none
  traceType : t.traceType = .htm

/-- What the other cores and the reading of the file find is left alone. -/
structure Trace.Spares (c : ℕ) (t t' : Trace E) : Prop where
  sfp : t'.sfp = t.sfp
  analytics : t'.analytics.status = t.analytics.status
  core : ∀ i, i ≠ c → t'.core i = t.core i
  itcPrint : ∀ i, i ≠ c → t'.itcPrint i = t.itcPrint i
  perfConverter : ∀ p i, i ≠ c → t'.perfConverter p i = t.perfConverter p i
  eventConverter : t'.eventConverter = t.eventConverter
  caSyncAddr : t'.caSyncAddr = t.caSyncAddr
  syncCount : t'.syncCount = t.syncCount
  unset : t'.nm.unset = t.nm.unset

theorem Trace.Spares.refl (c : ℕ) (t : Trace E) : t.Spares c t :=
  ⟨rfl, rfl, fun _ _ => rfl, fun _ _ => rfl, fun _ _ _ => rfl, rfl, rfl, rfl, rfl⟩

theorem Trace.Spares.trans {c : ℕ} {t t' t'' : Trace E} (h : t.Spares c t') (h' : t'.Spares c t'') :
    t.Spares c t'' where
  sfp := h'.sfp.trans h.sfp
  analytics := h'.analytics.trans h.analytics
  core i hi := (h'.core i hi).trans (h.core i hi)
  itcPrint i hi := (h'.itcPrint i hi).trans (h.itcPrint i hi)
  perfConverter p i hi := (h'.perfConverter p i hi).trans (h.perfConverter p i hi)
  eventConverter := h'.eventConverter.trans h.eventConverter
  caSyncAddr := h'.caSyncAddr.trans h.caSyncAddr
  syncCount := h'.syncCount.trans h.syncCount
  unset := h'.unset.trans h.unset

structure Local (c : ℕ) (v : Trace E → Trace E) : Prop where
  worksOn : ∀ {t : Trace E}, t.WorksOn c → (v t).WorksOn c
  spares : ∀ {t : Trace E}, t.WorksOn c → t.Spares c (v t)
  beside : ∀ {t : Trace E} (o : Elsewhere E), t.WorksOn c → ∃ o' : Elsewhere E, o'.sfp = o.sfp ∧
    v (t.beside c o) = (v t).beside c o'

namespace Local

variable {c : ℕ}

theorem same : Local (E := E) c fun t => t :=
  ⟨fun h => h, fun _ => Trace.Spares.refl c _, fun o _ => ⟨o, rfl, rfl⟩⟩

theorem comp {v w : Trace E → Trace E} (hw : Local c w) (hv : Local c v) : Local c (w ∘ v) where
  worksOn h := hw.worksOn (hv.worksOn h)
  spares h := (hv.spares h).trans (hw.spares (hv.worksOn h))
  beside {t} o h := by
    obtain ⟨o₁, hsfp₁, hv₁⟩ := hv.beside o h
    obtain ⟨o₂, hsfp₂, hw₂⟩ := hw.beside o₁ (hv.worksOn h)
    exact ⟨o₂, hsfp₂.trans hsfp₁, (congrArg w hv₁).trans hw₂⟩

/-- What is done may depend on what is seen of the core at work. -/
theorem ite {b : Trace E → Bool} {v w : Trace E → Trace E}
    (hb : ∀ {t : Trace E} (o : Elsewhere E), t.WorksOn c → b (t.beside c o) = b t) (hv : Local c v)
    (hw : Local c w) : Local c fun t => if b t then v t else w t where
  worksOn {t} h := by
    cases b t
    · exact hw.worksOn h
    · exact hv.worksOn h
  spares {t} h := by
    cases b t
    · exact hw.spares h
    · exact hv.spares h
  beside {t} o h := by
    rw [hb o h]
    cases b t
    · exact hw.beside o h
    · exact hv.beside o h

end Local

/-! ### Updates -/

section
variable {c : ℕ} {d : Decoder E} {t : Trace E}

theorem Decoder.beside_modifyCore (o : Elsewhere E) (f : CoreState → CoreState) :
    (d.beside c o).modifyCore c f = (d.modifyCore c f).beside c o := by
  unfold Decoder.beside Decoder.modifyCore
  simp only [Function.update_self, Function.update_idem]

theorem tcode_setCkdata1 (a : ADDRESS) (body : MessageBody) : (body.setCkdata1 a).tcode =
    body.tcode := by
  cases body <;> rfl

/-- What is changed of a core is changed of the core at work. -/
theorem local_modifyCore {g : Decoder E → ℕ} (hg : ∀ {t : Trace E}, t.WorksOn c → g t.toDecoder = c)
    (hbeside : ∀ (d : Decoder E) o, g (d.beside c o) = g d) (f : CoreState → CoreState) :
    Local (E := E) c fun t => t.on fun d => d.modifyCore (g d) f where
  worksOn h := ⟨h.currentCore, h.nmCore, h.noError, h.caTrace, h.traceType⟩
  spares {t} h := ⟨rfl, rfl, fun i hi => Decoder.core_modifyCore_of_ne _ _ (by rw [hg h]; exact hi),
    fun _ _ => rfl, fun _ _ _ => rfl, rfl, rfl, rfl, rfl⟩
  beside {t} o h := by
    refine ⟨o, rfl, ?_⟩
    have hd : (t.toDecoder.beside c o).modifyCore (g (t.toDecoder.beside c o)) f =
        (t.toDecoder.modifyCore (g t.toDecoder) f).beside c o := by
      rw [hbeside, hg h, Decoder.beside_modifyCore]
    exact congrArg (fun d => { t.beside c o with toDecoder := d }) hd

theorem local_modifyHere (f : CoreState → CoreState) :
    Local (E := E) c fun t => t.on (·.modifyHere f) :=
  local_modifyCore (g := (·.currentCore)) (fun h => h.currentCore) (fun _ _ => rfl) f

theorem local_reset : Local (E := E) c fun t => t.on fun d => d.resetTrace d.currentCore := by
  have hcore := local_modifyHere (E := E) (c := c) fun k => { k.reset E.isBareMetal with counts :=
    k.counts.resetCounts.resetStack }
  have hrest : Local (E := E) c fun t => t.on
      fun d => { d with status := .ok, readNewTraceMessage := true } :=
    ⟨fun h => ⟨h.currentCore, h.nmCore, h.noError, h.caTrace, h.traceType⟩,
      fun _ => ⟨rfl, rfl, fun _ _ => rfl, fun _ _ => rfl, fun _ _ _ => rfl, rfl, rfl, rfl, rfl⟩,
        fun o _ => ⟨o, rfl, rfl⟩⟩
  exact hrest.comp hcore

theorem Analytics.with_status {a : Analytics} {rc : DQErr} (h : a.status = rc) :
    a = { a with status := rc } := by
  subst h
  rfl

variable (hE : ¬ E.Converts)
include hE

theorem local_of_msgUpdate {u : Decoder E → Decoder E} (hu : MsgUpdate u) :
    Local c fun t => t.on u := by
  have hplain {u : Decoder E → Decoder E} (hworks : ∀ {t : Trace E}, t.WorksOn c →
      (t.on u).WorksOn c) (hspares : ∀ {t : Trace E}, t.WorksOn c → t.Spares c (t.on u))
      (hbeside : ∀ (d : Decoder E) o, d.nm.core = c → ∃ o' : Elsewhere E, o'.sfp = o.sfp ∧
        u (d.beside c o) = (u d).beside c o') :
      Local c fun t => t.on u := by
    refine ⟨hworks, hspares, fun {t} o h => ?_⟩
    obtain ⟨o', hsfp, hd⟩ := hbeside t.toDecoder o h.nmCore
    refine ⟨{ o' with reportedNum := o.reportedNum, reportedOffset := o.reportedOffset }, hsfp, ?_⟩
    exact congrArg (fun d => { t.beside c o with toDecoder := d }) hd
  cases hu with
  | here f => exact local_modifyHere f
  | nmHere f => exact local_modifyCore (g := (·.nm.core)) (fun h => h.nmCore) (fun _ _ => rfl) f
  | closeConverter p h => exact absurd h hE
  | openConverter p rc h => exact absurd h hE
  | ckdata1 a =>
    refine hplain (fun h => ⟨h.currentCore, h.nmCore, ?_, h.caTrace, h.traceType⟩)
      (fun _ => ⟨rfl, rfl, fun _ _ => rfl, fun _ _ => rfl, fun _ _ _ => rfl, rfl, rfl, rfl, rfl⟩)
        fun d o _ => ⟨o, rfl, rfl⟩
    exact (tcode_setCkdata1 a _).trans_ne h.noError
  | emit p call =>
    exact hplain (fun h => ⟨h.currentCore, h.nmCore, h.noError, h.caTrace, h.traceType⟩)
      (fun _ => ⟨rfl, rfl, fun _ _ => rfl, fun _ _ => rfl, fun _ _ _ => rfl, rfl, rfl, rfl, rfl⟩)
          fun d o _ =>
        ⟨{ o with emitted := o.emitted ++ [⟨p, d.nm.core, (d.beside c o).here.lastTime, call⟩] },
          rfl, rfl⟩
  | perf p state b =>
    refine hplain (fun h => ⟨h.currentCore, h.nmCore, h.noError, h.caTrace, h.traceType⟩)
      (fun {t} h => ?_) fun d o hcore => ⟨o, rfl, ?_⟩
    · refine ⟨rfl, rfl, fun _ _ => rfl, fun _ _ => rfl, fun q i hi => ?_, rfl, rfl, rfl, rfl⟩
      change Function.update t.perfConverter p (Function.update (t.perfConverter p) t.nm.core state)
        q i = t.perfConverter q i
      rw [h.nmCore]
      by_cases hq : q = p
      · subst hq
        rw [Function.update_self, Function.update_of_ne hi]
      · rw [Function.update_of_ne hq]
    · have hperf : Function.update (fun q => Function.update (o.perfConverter q) c
          (d.perfConverter q c)) p
            (Function.update (Function.update (o.perfConverter p) c (d.perfConverter p c)) c
            state) =
          fun q => Function.update (o.perfConverter q) c (Function.update d.perfConverter p
            (Function.update (d.perfConverter p) c state) q c) := by
        funext q
        by_cases hq : q = p
        · subst hq
          rw [Function.update_self, Function.update_self, Function.update_self,
            Function.update_idem]
        · rw [Function.update_of_ne hq, Function.update_of_ne hq]
      subst hcore
      exact congrArg (fun perf =>
        { d.beside d.nm.core o with perfConverter := perf, consumed := b }) hperf
  | status | consumed =>
    exact hplain (fun h => ⟨h.currentCore, h.nmCore, h.noError, h.caTrace, h.traceType⟩)
      (fun _ => ⟨rfl, rfl, fun _ _ => rfl, fun _ _ => rfl, fun _ _ _ => rfl, rfl, rfl, rfl, rfl⟩)
        fun d o _ => ⟨o, rfl, rfl⟩

theorem local_of_stateUpdate {u : Decoder E → Decoder E} (hu : StateUpdate u) :
    Local c fun t => t.on u := by
  cases hu with
  | msg hu => exact local_of_msgUpdate hE hu
  | here f => exact local_modifyHere f
  | raise => exact local_modifyHere _
  | reset => exact local_reset
  | instruction instSize crFlags brFlags hsize =>
    have hstatus (a : Analytics) (core : ℕ) :
        (a.updateInstructionInfo core instSize crFlags brFlags).status = a.status := by
      rw [Analytics.updateInstructionInfo_status, if_pos (by omega)]
    refine ⟨fun h => ⟨h.currentCore, h.nmCore, h.noError, h.caTrace, h.traceType⟩, fun {t} _ =>
      ⟨rfl, hstatus _ _, fun _ _ => rfl, fun _ _ => rfl, fun _ _ _ => rfl, rfl, rfl, rfl, rfl⟩,
        fun {t} o _ => ?_⟩
    refine ⟨{ o with analytics := (t.toDecoder.beside c o).analytics.updateInstructionInfo t.currentCore instSize crFlags brFlags }, rfl, ?_⟩
    have hanalytics :=
      Analytics.with_status ((hstatus (t.toDecoder.beside c o).analytics t.currentCore).trans
        (hstatus t.analytics t.currentCore).symm)
    exact congrArg (fun a => { t.beside c o with analytics := a }) hanalytics
  | readNew | tolerantError =>
    exact ⟨fun h => ⟨h.currentCore, h.nmCore, h.noError, h.caTrace, h.traceType⟩,
      fun _ => ⟨rfl, rfl, fun _ _ => rfl, fun _ _ => rfl, fun _ _ _ => rfl, rfl, rfl, rfl, rfl⟩,
        fun o _ => ⟨o, rfl, rfl⟩⟩

end

/-! ### Reports -/

section
variable {c : ℕ} {t : Trace E}

theorem beside_here (h : t.WorksOn c) (o : Elsewhere E) : (t.beside c o).here = t.here := by
  change Function.update o.core c (t.core c) t.currentCore = t.core t.currentCore
  rw [h.currentCore, Function.update_self]

theorem local_of_shown {v : Trace E → Trace E} (hd : ∀ t, (v t).toDecoder = t.toDecoder)
    (hbeside : ∀ {t : Trace E} (o : Elsewhere E), t.WorksOn c → v (t.beside c o) =
      (v t).beside c o) : Local c v where
  worksOn {t} h := by
    constructor <;> rw [hd t]
    exacts [h.currentCore, h.nmCore, h.noError, h.caTrace, h.traceType]
  spares {t} _ := by
    constructor <;> rw [hd t] <;> intros <;> rfl
  beside o h := ⟨o, rfl, hbeside o h⟩

theorem beside_disassemble (h : t.WorksOn c) (o : Elsewhere E) (a : ADDRESS) :
    disassemble a (t.beside c o) = (disassemble a t).beside c o := by
  unfold disassemble
  rw [beside_here h]
  split <;> rfl

theorem beside_hasSource (h : t.WorksOn c) (o : Elsewhere E) :
    hasSource (t.beside c o) = hasSource t := by
  unfold hasSource disassembles
  rw [beside_here h]

theorem local_disassemble (a : ADDRESS) : Local (E := E) c (disassemble a) :=
  local_of_shown (disassemble_toDecoder a) fun o h => beside_disassemble h o a

theorem local_disassembleHere : Local (E := E) c fun t => disassemble t.here.currentAddress t :=
  local_of_shown (fun t => disassemble_toDecoder _ t) fun o h => by
    rw [beside_here h, beside_disassemble h]

theorem local_reportSource : Local (E := E) c reportSource :=
  local_of_shown (fun _ => rfl) fun o h => by
    unfold reportSource
    rw [beside_here h]
    rfl

theorem local_reportSourceHere : Local (E := E) c reportSourceHere := by
  have hite := Local.ite (fun o h => beside_hasSource h o)
    (local_reportSource.comp local_disassembleHere) (Local.same (E := E) (c := c))
  exact hite

theorem local_reportEventInstruction (cksrc : Option ICTReason) :
    Local (E := E) c (reportEventInstruction cksrc) where
  worksOn h := ⟨h.currentCore, h.nmCore, h.noError, h.caTrace, h.traceType⟩
  spares _ := ⟨rfl, rfl, fun _ _ => rfl, fun _ _ => rfl, fun _ _ _ => rfl, rfl, rfl, rfl, rfl⟩
  beside {t} o h := by
    refine ⟨o, rfl, ?_⟩
    unfold reportEventInstruction
    rw [beside_here h]
    rfl

theorem local_reportEvent (want : Want) (cksrc : Option ICTReason) :
    Local (E := E) c (reportEvent want cksrc) := by
  have hwanted : Local (E := E) c ((if want.src then reportSource else id) ∘
      (if want.inst then reportEventInstruction cksrc else id) ∘ fun t => disassemble
        t.here.currentAddress t) := by
    refine Local.comp ?_ (Local.comp ?_ local_disassembleHere)
    · split_ifs
      · exact local_reportSource
      · exact Local.same
    · split_ifs
      · exact local_reportEventInstruction cksrc
      · exact Local.same
  have hite := Local.ite (b := fun t => (want.inst || want.src) && hasSource t)
    (fun o h => by rw [beside_hasSource h]) hwanted (Local.same (E := E) (c := c))
  rw [show reportEvent want cksrc = _ from funext fun t => reportEvent_eq want cksrc t]
  exact hite

theorem local_reportInstruction (locals : Locals) (s : Stepped) (ca : Option (CAInfo × BitVec 32)) :
    Local (E := E) c (reportInstruction locals s ca) := by
  have hshown : Local (E := E) c fun t =>
      { t with instructionInfo := instructionAt locals s ca t.currentCore t.here t.instructionInfo, instSet := true } :=
    local_of_shown (fun _ => rfl) fun o h => by
      rw [beside_here h]
      rfl
  exact (local_modifyHere ({ · with enterISR := CRFlag.isNone })).comp hshown

theorem Reported.beside {m : Decoder E → NexusMessage} (hm : Reported m) (h : t.WorksOn c)
    (o : Elsewhere E) :
    m (t.beside c o).toDecoder = (m t.toDecoder).numbered o.msgNum o.offset := by
  have hhere : (t.beside c o).here = t.here := beside_here h o
  have hat (a : ADDRESS) : messageAt a (t.beside c o).toDecoder = (messageAt a t.toDecoder).numbered
      o.msgNum o.offset := by
    unfold messageAt
    rw [hhere]
    rfl
  cases hm with
  | «at» a => exact hat a
  | here =>
    unfold messageHere
    rw [hhere, hat]
  | noPid =>
    unfold messageNoPid
    rw [hhere]
    rfl
  | atFAddr => rfl
  | atStop =>
    have hbody : (t.beside c o).nm.body = t.nm.body := rfl
    unfold messageAtStop messageHere
    rw [hbody, hhere]
    split <;> exact hat _

theorem Reported.core {m : Decoder E → NexusMessage} (hm : Reported m) (d : Decoder E) :
    (m d).core = d.nm.core := by
  cases hm with
  | atStop =>
    unfold messageAtStop
    split <;> rfl
  | _ => rfl

theorem processITCPrintData_beside {m : NexusMessage} (hm : m.core = c) (n k : BitVec 32)
    (q q' : ℕ → E.ItcQueue) :
    processITCPrintData (m.numbered n k) (Function.update q' c (q c)) =
      ((processITCPrintData m q).1, Function.update q' c ((processITCPrintData m q).2 c)) := by
  subst hm
  have hsame : (m.numbered n k).body = m.body ∧ (m.numbered n k).core = m.core ∧
    (m.numbered n k).time = m.time := ⟨rfl, rfl, rfl⟩
  unfold processITCPrintData
  rw [hsame.1, hsame.2.1, hsame.2.2]
  split
  · simp only [Function.update_self, Function.update_idem]
  · rfl

theorem processITCPrintData_of_ne {m : NexusMessage} {i : ℕ} (hi : i ≠ m.core)
    (q : ℕ → E.ItcQueue) : (processITCPrintData m q).2 i = q i := by
  unfold processITCPrintData
  split
  · exact Function.update_of_ne hi _ _
  · rfl

theorem local_report {m : Decoder E → NexusMessage} (hm : Reported m) :
    Local (E := E) c fun t => report (m t.toDecoder) t where
  worksOn {t} h := by
    unfold report
    split_ifs <;> exact ⟨h.currentCore, h.nmCore, h.noError, h.caTrace, h.traceType⟩
  spares {t} h := by
    unfold report
    split_ifs
    · exact ⟨rfl, rfl, fun _ _ => rfl, fun _ _ => rfl, fun _ _ _ => rfl, rfl, rfl, rfl, rfl⟩
    · refine ⟨rfl, rfl, fun _ _ => rfl, fun i hi => processITCPrintData_of_ne ?_ _, fun _ _ _ =>
        rfl, rfl, rfl, rfl, rfl⟩
      rw [hm.core, h.nmCore]
      exact hi
  beside {t} o h := by
    refine ⟨{ o with reportedNum := o.msgNum, reportedOffset := o.offset }, rfl, ?_⟩
    have hprint := processITCPrintData_beside ((hm.core t.toDecoder).trans h.nmCore) o.msgNum
      o.offset t.itcPrint o.itcPrint
    have hqueues : (t.beside c o).itcPrint = Function.update o.itcPrint c (t.itcPrint c) := rfl
    have hconsumed : (t.beside c o).consumed = t.consumed := rfl
    rw [hm.beside h]
    unfold report
    rw [hconsumed, hqueues, hprint]
    split_ifs
    · rfl
    · rfl

end

end TraceDecoder
