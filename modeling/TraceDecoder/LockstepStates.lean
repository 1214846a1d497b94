import TraceDecoder.Lockstep

/-!
# The states in lockstep

In each of its states a call does the same with two traces that are related. What a state reports to
its caller may be different; that it does so from the same message and the same instruction is part
of what is assumed of the two callers.
-/

namespace TraceDecoder

open EStateM TraceM

variable {E : Env}

/-! ### States -/

theorem reportFailure_ends {want : Want} (t : Trace E) :
    ∃ e t', reportFailure want t = .error e t' := by
  have hends : Leaves (Held t.sfp t.readNewTraceMessage) (reportFailure want)
      (fun _ (_ : Trace E) => False) (Stops t.sfp) :=
    stops_reportFailure
  have hrun := hends t ⟨rfl, rfl⟩
  cases hq : reportFailure want t with
  | ok u t' =>
    rw [hq] at hrun
    exact hrun.elim
  | error e t' => exact ⟨e, t', rfl⟩

theorem coupled_of_ends {pre err : Trace E → Trace E → Prop} {p q : TraceM E Unit}
    {post post' : Unit → Unit → Trace E → Trace E → Prop}
    (hends : ∀ t, ∃ e t', p t = .error e t') (h : Coupled pre p q post err) :
    Coupled pre p q post' err := by
  intro t t' hst
  have hrun := h t t' hst
  obtain ⟨e, t₁, he⟩ := hends t
  rw [he] at hrun ⊢
  cases hq : q t' with
  | ok =>
    rw [hq] at hrun
    exact hrun.elim
  | error =>
    rw [hq] at hrun
    exact hrun

theorem reportMessage_run (want : Want) (m : Decoder E → NexusMessage) (t : Trace E) :
    reportMessage want m t = .ok () (if want.msg then report (m t.toDecoder) t else t) := by
  unfold reportMessage onlyIf
  cases want.msg <;> rfl

@[simp] theorem report_instSet (m : NexusMessage) (t : Trace E) : (report m t).instSet =
    t.instSet := by
  unfold report
  split <;> rfl

theorem updateTime_ok (tstype : TsType) (d : Decoder E) :
    ∃ d', DecoderM.updateTime tstype d = .ok () d' := by
  unfold DecoderM.updateTime
  rw [read_bind_run, read_bind_run]
  unfold onlyIf
  split_ifs <;> exact ⟨_, rfl⟩

theorem processTraceMessage_unknownReason {d : Decoder E}
    (hbody : d.nm.body.tcode = .inCircuitTrace ∨ d.nm.body.tcode = .inCircuitTraceWS)
    (hreason : d.nm.body.getCKSRC = none) :
    ∃ d', DecoderM.processTraceMessage d = .error .err d' := by
  have hevent {tstype : TsType} {b : Bool} {p : DecoderM E Unit} (hp : ∀ d, p d = .error .err d)
      (d : Decoder E) : ∃ d', (do DecoderM.updateTime tstype; DecoderM.setPrevMsgWasSync b; p) d =
        .error .err d' := by
    obtain ⟨d₁, htime⟩ := updateTime_ok tstype d
    exact ⟨_, (bind_ok htime).trans (hp _)⟩
  rw [DecoderM.processTraceMessage_eq]
  cases hb : d.nm.body with
  | ict m =>
    rw [hb] at hreason
    apply hevent
    intro d
    unfold DecoderM.processICT
    rw [show ICTReason.ofCode m.cksrc = none from hreason]
    rfl
  | ictWS m =>
    rw [hb] at hreason
    apply hevent
    intro d
    unfold DecoderM.processICTWS
    rw [show ICTReason.ofCode m.cksrc = none from hreason]
    rfl
  | other => exact ⟨_, rfl⟩
  | _ =>
    rw [hb] at hbody
    simp [MessageBody.tcode] at hbody

theorem processMessage_unknownReason {t : Trace E} (want : Want)
    (hbody : t.nm.body.tcode = .inCircuitTrace ∨ t.nm.body.tcode = .inCircuitTraceWS)
    (hreason : t.nm.body.getCKSRC = none) :
    ∃ e t', TraceM.processMessage want t = .error e t' := by
  obtain ⟨d, hd⟩ := processTraceMessage_unknownReason hbody hreason
  have hattempt : attempt DecoderM.processTraceMessage t = .ok .err { t with toDecoder := d } := by
    unfold attempt
    rw [hd]
  obtain ⟨e, t', hfails⟩ := reportFailure_ends { t with toDecoder := d }
  exact ⟨e, t', (bind_ok hattempt).trans hfails⟩

section
variable {R : Trace E → Trace E → Prop} {want want' : Want} (h : Speaks want want' R)
include h

theorem Speaks.fresh : Speaks want want' (Fresh R) where
  toShares := h.toShares.fresh
  resetsAll := h.resetsAll.imp (fun hno {_ _} hs => hno hs.rel) fun hreset {_ _} hs =>
    ⟨hreset hs.rel, hs.left, hs.right⟩
  message {m} hm t t' hs := by
    have hrun := h.message hm t t' hs.rel
    rw [reportMessage_run, reportMessage_run] at hrun ⊢
    refine ⟨rfl, hrun.2, ?_, ?_⟩
    · split_ifs
      · exact (report_instSet _ t).trans hs.left
      · exact hs.left
    · split_ifs
      · exact (report_instSet _ t').trans hs.right
      · exact hs.right

theorem Speaks.reportFailure : Matches R R (reportFailure want) (reportFailure want') :=
  (h.message .here).bind fun _ => h.failTolerantly

theorem Speaks.processMessage : Matches R R (processMessage want) (processMessage want') :=
  h.processTraceMessage.bind fun _ => Matches.onlyIf fun _ => h.reportFailure

theorem Speaks.processAndReport {m : Decoder E → NexusMessage} (hm : Reported m) :
    Matches R R (processAndReport want m) (processAndReport want' m) :=
  h.processTraceMessage.bind fun _ => (h.message hm).bind fun _ =>
    (Matches.onlyIf fun _ => (h.modifyD .tolerantError).bind fun _ => Matches.onlyIf fun _ =>
      h.fail).bind fun _ => Matches.pure

theorem Speaks.skipMessage {m : Decoder E → NexusMessage} (hm : Reported m) :
    Matches R R (skipMessage want m) (skipMessage want' m) :=
  h.processTraceMessage.bind fun _ => (Matches.onlyIf fun _ => h.fail).bind
    fun _ => (h.message hm).bind fun _ => h.retire

/-- What is done with a message; all cores are reset at an error message only. -/
theorem Speaks.withBody {α : Type} {pre err : Trace E → Trace E → Prop}
    (hpre : ∀ t t', pre t t' → R t t') {f g : MessageBody → TraceM E α}
    {post : α → α → Trace E → Trace E → Prop}
    (hf : ∀ body, (body.tcode = .error → Matches R R (modifyD (E := E) Decoder.resetTraceAll)
      (modifyD Decoder.resetTraceAll)) →
      Coupled (fun t t' => pre t t' ∧ t.nm.body = body) (f body) (g body) post err) :
    Coupled pre (readD (·.nm.body) >>= f) (readD (·.nm.body) >>= g) post err := by
  intro t t' hst
  have hbody : t.nm.body = t'.nm.body := (h.similar (hpre t t' hst)).body
  have hl : (readD (·.nm.body) >>= f) t = f t.nm.body t := rfl
  have hr : (readD (·.nm.body) >>= g) t' = g t'.nm.body t' := rfl
  rw [hl, hr, ← hbody]
  refine hf t.nm.body (fun herror => ?_) t t' ⟨hst, rfl⟩
  rcases h.resetsAll with hno | hreset
  · exact absurd herror (hno (hpre t t' hst))
  · exact Matches.modify fun _ _ hst => hreset hst

/-- The reason of an event that has been processed is known. -/
theorem Speaks.processEvent {body : MessageBody}
    (hbody : body.tcode = .inCircuitTrace ∨ body.tcode = .inCircuitTraceWS) :
    Coupled (fun t t' => R t t' ∧ t.nm.body = body) (TraceM.processMessage want)
      (TraceM.processMessage want') (fun a b t t' => a = b ∧ R t t' ∧ body.getCKSRC.isSome) R := by
  rintro t t' ⟨hst, hat⟩
  have hrun := h.processMessage t t' hst
  cases hreason : body.getCKSRC with
  | some reason =>
    cases hp : TraceM.processMessage want t <;> cases hq : TraceM.processMessage want' t' <;>
      rw [hp, hq] at hrun
    · exact ⟨hrun.1, hrun.2, rfl⟩
    · exact hrun
    · exact hrun
    · exact hrun
  | none =>
    obtain ⟨e, t₁, hends⟩ :=
      processMessage_unknownReason (t := t) want (hat ▸ hbody) (hat ▸ hreason)
    rw [hends] at hrun ⊢
    cases hq : TraceM.processMessage want' t' <;> rw [hq] at hrun
    · exact hrun.elim
    · exact hrun

theorem Speaks.syncCATE : Matches R R (syncCATE want) (syncCATE want') := by
  refine h.withCATrace ?_ fun hca ca => ?_
  · exact h.readBody.bind fun _ => (h.readHere (·.lastFaddr) fun _ => rfl).bind fun _ => h.fail
  refine h.withBody (fun _ _ hst => hst) fun body hreset => Coupled.and_left
    ((h.readHere (·.lastFaddr) fun _ => rfl).bind fun lastFaddr => ?_)
  cases htcode : body.tcode <;> simp only
  case error =>
    exact (h.updateTime _).bind fun _ => (h.message .noPid).bind fun _ => (hreset htcode).bind
      fun _ => h.retire
  case sync | directBranchWS | indirectBranchWS | indirectBranchHistoryWS | inCircuitTraceWS =>
    rcases startsTrace body with _ | _ | _
    · exact h.fail
    · exact h.skipMessage .atFAddr
    · exact (h.alignCATrace hca _ _).bind fun _ => h.setState _
  case ownershipTrace | directBranch | indirectBranch | dataAcquisition | inCircuitTrace | correlation
      | resourceFull | indirectBranchHistory | repeatBranch | repeatInstruction | repeatInstructionWS
      | auxAccessReadNext | auxAccessWriteNext | auxAccessResponse | outputPortReplacement
      | inputPortReplacement | auxAccessRead | auxAccessWrite =>
    split_ifs
    · exact h.skipMessage .noPid
    · exact (h.message .noPid).bind fun _ => h.retire
  all_goals exact h.fail

end

section
variable {R : Trace E → Trace E → Prop} {want want' : Want} {locals locals' : Locals}
    (h : Lockstep want want' locals locals' R)
include h

theorem Lockstep.getFirstSyncMsg : Coupled (Fresh R) (getFirstSyncMsg want) (getFirstSyncMsg want')
    (fun _ _ => R) R := by
  have hrel {pre : Trace E → Trace E → Prop} (hpre : ∀ t t', pre t t' → R t t')
      {p q : TraceM E Unit} (hpq : Matches R R p q) : Coupled pre p q (fun _ _ => R) R :=
        Coupled.weaken hpq hpre (fun _ _ _ _ hst => hst.2) fun _ _ hst => hst
  have hfresh : ∀ t t', Fresh R t t' → R t t' := fun _ _ hst => hst.rel
  have hend : Coupled R (do setReadNewTraceMessage true; reportMessage want messageHere; setStatus .ok; ret .ok)
      (do setReadNewTraceMessage true; reportMessage want' messageHere; setStatus .ok; ret .ok)
        (fun _ _ => R) R :=
    hrel (fun _ _ hst => hst) ((h.setReadNew _).bind fun _ => (h.message .here).bind fun _ =>
      (h.setStatus _).bind fun _ => matches_ret)
  have hprocess : Coupled (Fresh R) (processMessage want) (processMessage want')
      (fun a b t t' => a = b ∧ Fresh R t t') R :=
    Coupled.weaken h.toSpeaks.fresh.processMessage (fun _ _ hst => hst) (fun _ _ _ _ hst => hst)
      fun _ _ hst => hst.rel
  suffices hlook : ∀ body,
      (body.tcode = .error → Matches R R (modifyD (E := E) Decoder.resetTraceAll)
      (modifyD Decoder.resetTraceAll)) → Coupled (fun t t' => Fresh R t t' ∧ t.nm.body = body)
        (lookForSync want body) (lookForSync want' body) (fun _ _ => R) R from
    h.withBody hfresh fun body hreset => (hlook body hreset).bind fun _ _ => hend
  intro body hreset
  unfold lookForSync
  cases htcode : body.tcode <;> simp only
  case sync | directBranchWS | indirectBranchWS | indirectBranchHistoryWS =>
    exact Coupled.and_left (hprocess.bind_same fun _ => h.sourceHere.bind fun _ _ =>
      hrel (fun _ _ hst => hst) h.startDecoding)
  case inCircuitTraceWS =>
    have hbody : Coupled (fun t t' => Fresh R t t' ∧ t.nm.body = body) (processMessage want)
        (processMessage want') (fun a b t t' => a = b ∧ R t t' ∧ body.getCKSRC.isSome) R :=
      (h.processEvent (.inr htcode)).weaken (fun _ _ hst => ⟨hst.1.rel, hst.2⟩)
        (fun _ _ _ _ hst => hst) fun _ _ hst => hst
    refine hbody.bind_same fun _ => Coupled.of_and fun hreason => ?_
    obtain ⟨reason, hsrc⟩ := Option.isSome_iff_exists.mp hreason
    rw [hsrc]
    refine hrel (fun _ _ hst => hst) ((h.modifyHere _ fun k x => ?_).bind fun _ => Matches.onlyIf
        fun _ =>
      (Matches.onlyIf fun _ => h.event reason).bind fun _ => h.startDecoding)
    split_ifs <;> rfl
  case error =>
    exact hrel (fun _ _ hst => hst.1.rel) ((h.processAndReport .here).bind fun _ =>
      (hreset htcode).bind fun _ => matches_ret)
  case dataAcquisition | ownershipTrace | inCircuitTrace | directBranch | indirectBranch | indirectBranchHistory
      | resourceFull | correlation => exact hrel (fun _ _ hst => hst.1.rel) h.processMessage
  all_goals exact hrel (fun _ _ hst => hst.1.rel) ((h.message (.at 0)).bind fun _ =>
    h.failTolerantly)

theorem Lockstep.retireMessage : Matches R R (retireMessage want) (retireMessage want') := by
  refine h.readBody.bind fun body => Matches.bind ?_ fun _ => (h.setStatus _).bind
    fun _ => matches_ret
  unfold retireCounts
  cases body.tcode <;> simp only
  case sync | directBranchWS | indirectBranchWS | indirectBranchHistoryWS | directBranch | indirectBranch
      | indirectBranchHistory | resourceFull =>
    exact h.processMessage.bind fun _ => (h.message .here).bind fun _ => h.sourceOnce.bind fun _ =>
      (Matches.onlyIf fun _ => h.modifyD .raise).bind fun _ => (h.setReadNew _).bind
        fun _ => h.setState _
  case correlation => exact (h.processAndReport .atStop).bind fun _ => h.reset.bind fun _ =>
    matches_ret
  all_goals exact h.fail

theorem Lockstep.getNextMsg : Matches R R (getNextMsg want locals) (getNextMsg want' locals') := by
  refine h.withBody (fun _ _ hst => hst) fun body hreset => h.withHere (fun _ _ hst => hst.1)
    fun k k' hk => ?_
  have hindex : k.currentProcessIndex = k'.currentProcessIndex :=
    CoreState.same_of_decoding hk (g := (·.currentProcessIndex)) fun _ => rfl
  have hsync : k.prevMsgWasSync = k'.prevMsgWasSync :=
    CoreState.same_of_decoding hk (g := (·.prevMsgWasSync)) fun _ => rfl
  rw [← hindex, ← hsync]
  have hrest : Matches R R (do setReadNewTraceMessage (E := E) true; retStatus)
      (do setReadNewTraceMessage true; retStatus) :=
    (h.setReadNew _).bind fun _ => h.retStatus
  have hrel {p q : TraceM E Unit} (hpq : Matches R R p q) :
      Coupled (fun t t' => (R t t' ∧ t.nm.body = body) ∧ t.here = k) p q (fun _ _ => R) R :=
    Coupled.weaken hpq (fun _ _ hst => hst.1.1) (fun _ _ _ _ hst => hst.2) fun _ _ hst => hst
  suffices hcases : Coupled (fun t t' => (R t t' ∧ t.nm.body = body) ∧ t.here = k)
      _ _ (fun _ _ => R) R from
    hcases.weaken (fun _ _ hst => hst) (fun _ _ _ _ hst => ⟨rfl, hst⟩) fun _ _ hst => hst
  cases htcode : body.tcode <;> simp only
  case directBranch | indirectBranch | sync | directBranchWS | indirectBranchWS | correlation
      | indirectBranchHistory | indirectBranchHistoryWS | resourceFull =>
    split_ifs
    · exact hrel (h.setCounts.bind fun _ => (Matches.onlyIf fun _ => h.reportFailure).bind fun _ =>
        h.setState _)
    · exact hrel ((h.processAndReport .here).bind fun _ => (Matches.onlyIf fun _ => h.reset).bind
          fun _ => (h.setReadNew _).bind fun _ =>
        matches_ret)
  case inCircuitTrace | inCircuitTraceWS =>
    have hict (want : Want) (locals : Locals) :
        (eventAddress want locals body >>= fun addr => reportMessage want (messageAt addr) >>=
        fun _ =>
        setReadNewTraceMessage (E := E) true >>= fun _ => retStatus) =
        reportICT want locals body >>= fun _ => setReadNewTraceMessage true >>= fun _ =>
          retStatus := (bind_assoc _ _ _).symm
    refine Coupled.and_left ((h.processEvent (by simp [htcode])).bind_same fun _ => ?_)
    rw [hict, hict]
    exact Coupled.of_and fun hreason => Coupled.weaken ((h.ict body hreason).bind fun _ => hrest)
      (fun _ _ hst => hst) (fun _ _ _ _ hst => hst.2) fun _ _ hst => hst
  case error =>
    exact hrel ((h.updateTime _).bind fun _ => (h.message .here).bind fun _ => (hreset htcode).bind
      fun _ => hrest)
  case dataAcquisition =>
    exact hrel (h.processMessage.bind fun _ => (h.message .here).bind fun _ => hrest)
  case ownershipTrace =>
    exact hrel (h.processMessage.bind fun _ => (h.switchProcess _ _ _).bind fun _ =>
      (h.message .here).bind fun _ => hrest)
  all_goals exact hrel h.fail

/-- The end of an instruction: what is reported of it, and whether the message is used up. -/
theorem Lockstep.retireInstruction (d : DecodedInst) (s : Stepped)
    (hsize : d.inst_size = 16 ∨ d.inst_size = 32) :
    Coupled (Showing R) (retireInstruction want locals d s) (retireInstruction want' locals' d s)
      (fun a b t t' => a = b ∧ R t t') R := by
  have hshowing {α : Type} {p q : TraceM E α} (hpq : Matches (Showing R) (Showing R) p q) :
      Coupled (Showing R) p q (fun a b t t' => a = b ∧ Showing R t t') R :=
    Coupled.weaken hpq (fun _ _ hst => hst) (fun _ _ _ _ hst => hst) fun _ _ hst => hst.rel
  have hend : Matches R R (endStep (E := E) d s) (endStep d s) := by
    refine (h.modifyD (.instruction _ _ _ hsize)).bind fun _ => Matches.bind (Matches.read
      fun _ _ hst => h.analytics hst) fun status => ?_
    refine (h.setStatus _).bind fun _ => (Matches.onlyIf fun _ => (h.setState _).bind fun _ =>
      matches_ret).bind fun _ => ?_
    refine (h.readHere (·.counts.getCurrentCountType) fun _ => rfl).bind fun count => ?_
    split_ifs
    · exact matches_ret
    · exact h.setState _
  rw [retireInstruction_eq, retireInstruction_eq]
  refine (hshowing (h.showing.modifyHere _ fun _ _ => rfl)).bind_same
    fun _ => (hshowing (h.consumeCATrace _)).bind_same fun ca => ?_
  exact (h.step s ca).bind fun _ _ => hend

theorem Lockstep.getNextInstruction :
    Matches R R (getNextInstruction want locals) (getNextInstruction want' locals') := by
  refine h.withHere (fun _ _ hst => hst) fun k k' hk => ?_
  have hcounts : k.counts = k'.counts :=
    CoreState.same_of_decoding hk (g := (·.counts)) fun _ => rfl
  have hindex : k.currentProcessIndex = k'.currentProcessIndex :=
    CoreState.same_of_decoding hk (g := (·.currentProcessIndex)) fun _ => rfl
  have haddr : k.currentAddress = k'.currentAddress :=
    CoreState.same_of_decoding hk (g := (·.currentAddress)) fun _ => rfl
  have hmemory : k.memory E = k'.memory E :=
    CoreState.same_of_decoding hk (g := (·.memory E)) fun _ => rfl
  rw [← hcounts, ← hindex, ← haddr, ← hmemory]
  have hstart {p q : TraceM E Unit} (hpq : Matches R R p q) :
      Coupled (fun t t' => R t t' ∧ t.here = k) p q (fun a b t t' => a = b ∧ R t t') R :=
    Coupled.weaken hpq (fun _ _ hst => hst.1) (fun _ _ _ _ hst => hst) fun _ _ hst => hst
  split_ifs
  · exact hstart (h.setState _)
  · exact hstart ((h.setState _).bind fun _ => matches_ret)
  · cases hword : (k.memory E).word k.currentAddress with
    | none => exact hstart ((h.setStatus _).bind fun _ => h.reportFailure)
    | some inst =>
      dsimp only
      have hok : Coupled (fun t t' => R t t' ∧ t.here = k) (setStatus (E := E) .ok) (setStatus .ok)
          (fun a b t t' => a = b ∧ R t t' ∧ t.here = k) R :=
        Coupled.modify fun t t' hst => ⟨rfl, h.closed (.msg (.status _)) hst.1, hst.2⟩
      refine hok.bind_same fun _ => ?_
      cases hd : Disassembler.decodeInstruction inst E.archSize with
      | none => exact hstart h.reportFailure
      | some d =>
        have hshow : Coupled (fun t t' => R t t' ∧ t.here = k)
            (modify (disassemble k.currentAddress) : TraceM E Unit)
              (modify (disassemble k.currentAddress)) (fun a b t t' => a = b ∧ Showing R t t')
              R := by
          refine Coupled.modify fun t t' hst => ⟨rfl, ?_⟩
          have hdis : disassembles k.currentAddress t :=
            disassembles_of_word (by rw [hst.2]; exact hword)
          obtain ⟨hinst, hsrc⟩ := disassemble_shows (h.similar hst.1).here hdis
          exact ⟨h.shows _ hdis hst.1, hinst, hsrc⟩
        refine hshow.bind_same fun _ => ?_
        -- the trace type that a step leaves is that of the trace, unless it is a branch trace
        have hnext : Coupled (Showing R)
            (readD fun d => nextAddr (k.memory E) E.archSize d.traceType k.counts d.nm
              k.currentAddress)
            (readD fun d => nextAddr (k.memory E) E.archSize d.traceType k.counts d.nm
              k.currentAddress)
            (fun a b t t' => a = b ∧ Showing R t t' ∧ ∀ s, a = .ok s → t.traceType = .btm ∨
              s.traceType = t.traceType) R := by
          refine Coupled.read fun t t' hst => ⟨?_, hst, fun s hs => nextAddr_traceType hs⟩
          change nextAddr _ _ t.traceType _ t.nm _ = nextAddr _ _ t'.traceType _ t'.nm _
          rw [h.traceType hst.rel, nextAddr_body (h.similar hst.rel).body]
        refine hnext.bind_same fun result => ?_
        cases result with
        | error =>
          exact Coupled.weaken ((h.setStatus .err).bind fun _ => h.reportFailure)
            (fun _ _ hst => hst.1.rel) (fun _ _ _ _ hst => hst) fun _ _ hst => hst
        | ok s =>
          have hswitch : Coupled (fun t t' => Showing R t t' ∧ ∀ s',
              (.ok s : Except DQErr Stepped) = .ok s' → t.traceType = .btm ∨ s'.traceType =
                t.traceType) (modifyD ({ · with traceType := s.traceType }))
              (modifyD ({ · with traceType := s.traceType })) (fun a b t t' => a = b ∧
                Showing R t t') R :=
            Coupled.modify fun t t' hst => ⟨rfl, h.showing.switches (hst.2 s rfl) hst.1⟩
          have hshowing {α : Type} {p q : TraceM E α} (hpq : Matches (Showing R) (Showing R) p q) :
              Coupled (Showing R) p q (fun a b t t' => a = b ∧ Showing R t t') R :=
            Coupled.weaken hpq (fun _ _ hst => hst) (fun _ _ _ _ hst => hst) fun _ _ hst => hst.rel
          have hrel {p q : TraceM E Unit} (hpq : Matches R R p q) :
              Coupled (Showing R) p q (fun a b t t' => a = b ∧ R t t') R :=
            Coupled.weaken hpq (fun _ _ hst => hst.rel) (fun _ _ _ _ hst => hst) fun _ _ hst => hst
          refine hswitch.bind_same
            fun _ => (hshowing (h.showing.modifyHere _ fun _ _ => rfl)).bind_same fun _ => ?_
          split_ifs
          · exact hrel (h.setState _)
          · refine Coupled.bind_same ?_ fun _ => h.retireInstruction d s
              (instSize_of_decode hword hd)
            exact Coupled.onlyIf Iff.rfl (fun _ => coupled_of_ends reportFailure_ends
              (hrel h.reportFailure)) fun _ _ _ hst => ⟨rfl, hst⟩

theorem Lockstep.worksOff : Coupled (Fresh R) (work want locals) (work want' locals')
    (fun _ _ => R) R := by
  have hrel {p q : TraceM E Unit} (hpq : Matches R R p q) :
      Coupled (Fresh R) p q (fun _ _ => R) R :=
    Coupled.weaken hpq (fun _ _ hst => hst.rel) (fun _ _ _ _ hst => hst.2) fun _ _ hst => hst
  have hin (s : State) : Coupled (Fresh R) (workIn want locals s) (workIn want' locals' s)
      (fun _ _ => R) R := by
    cases s
    case syncCATE => exact hrel h.syncCATE
    case getFirstSyncMsg => exact h.getFirstSyncMsg
    case retireMessage => exact hrel h.retireMessage
    case getNextMsg => exact hrel h.getNextMsg
    case getNextInstruction => exact hrel h.getNextInstruction
    all_goals exact hrel ((h.setStatus _).bind fun _ => matches_ret)
  intro t t' hst
  have hs' : t'.here.state = t.here.state := ((h.similar hst.rel).same (·.state) fun _ => rfl).symm
  rw [work_of_state want locals rfl, work_of_state want' locals' hs']
  exact hin _ t t' hst

end

end TraceDecoder
