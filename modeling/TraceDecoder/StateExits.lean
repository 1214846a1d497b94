import TraceDecoder.States
import TraceDecoder.Updates

/-!
# How the states end

The states leave the file alone. A call that one of them ends well has used up its message, unless
an instruction has been run that leaves some of the counts. A state that does not end the call
leaves the core in a state that comes later, with the same message.
-/

namespace TraceDecoder

open EStateM

namespace TraceM

variable {E : Env} {p : SliceFileParser} {b : Bool} {want : Want} {locals : Locals}
  {post : Unit → Trace E → Prop} {err : Exit → Trace E → Prop}

/-- The file, and whether the next iteration reads a message from it. -/
structure Held (p : SliceFileParser) (b : Bool) (t : Trace E) : Prop where
  sfp : t.sfp = p
  readNew : t.readNewTraceMessage = b

def Stops (p : SliceFileParser) (e : Exit) (t : Trace E) : Prop :=
  ∃ rc, e = .ret rc ∧ (rc = .ok → Held p true t)

def GoesOn (p : SliceFileParser) (s : State) (_ : Unit) (t : Trace E) : Prop :=
  Held p false t ∧ t.here.state = s

/-! ### What the states share -/

theorem held_modifyD {u : Decoder E → Decoder E} (hsfp : ∀ d, (u d).sfp = d.sfp)
    (hread : ∀ d, (u d).readNewTraceMessage = d.readNewTraceMessage) :
    Leaves (Held p b) (modifyD u) (fun _ => Held p b) err :=
  Leaves.modify fun t h => ⟨(hsfp t.toDecoder).trans h.sfp, (hread t.toDecoder).trans h.readNew⟩

theorem held_readD {α : Type} {g : Decoder E → α} :
    Leaves (Held p b) (readD g) (fun _ => Held p b) err :=
  Leaves.read fun _ h => h

theorem held_setStatus (rc : DQErr) :
    Leaves (Held (E := E) p b) (setStatus rc) (fun _ => Held p b) err :=
  held_modifyD (fun _ => rfl) fun _ => rfl

theorem held_setTolerantError :
    Leaves (Held (E := E) p b) setTolerantError (fun _ => Held p b) err :=
  held_modifyD (fun _ => rfl) fun _ => rfl

theorem held_modifyHere (f : CoreState → CoreState) :
    Leaves (Held (E := E) p b) (modifyHere f) (fun _ => Held p b) err :=
  held_modifyD (fun _ => rfl) fun _ => rfl

theorem held_setReadNew : Leaves (Held (E := E) p b) (setReadNewTraceMessage true)
    (fun _ => Held p true) err :=
  Leaves.modify fun _ h => ⟨h.sfp, rfl⟩

theorem goesOn_setState (s : State) :
    Leaves (Held (E := E) p false) (setState s) (GoesOn p s) err :=
  Leaves.modify fun t h => ⟨⟨h.sfp, h.readNew⟩, congrArg CoreState.state
    (Decoder.here_modifyHere t.toDecoder _)⟩

theorem held_modify {u : Trace E → Trace E} (hu : ∀ t, (u t).sfp = t.sfp)
    (hread : ∀ t, (u t).readNewTraceMessage = t.readNewTraceMessage) :
    Leaves (Held p b) (modify u) (fun _ => Held p b) err :=
  Leaves.modify fun t h => ⟨(hu t).trans h.sfp, (hread t).trans h.readNew⟩

theorem held_reportMessage (message : Decoder E → NexusMessage) :
    Leaves (Held p b) (reportMessage want message) (fun _ => Held p b) err :=
  Leaves.onlyIf (fun _ => held_modify (fun t => by unfold report; split <;> rfl)
    fun t => by unfold report; split <;> rfl) fun _ _ h => h

theorem held_attempt {q : DecoderM E Unit}
    (hq : Keeps (fun d => d.sfp = p ∧ d.readNewTraceMessage = b) q) :
    Leaves (Held p b) (attempt q) (fun _ => Held p b) err := by
  intro t h
  have hrun := hq t.toDecoder ⟨h.sfp, h.readNew⟩
  unfold attempt
  cases hrun' : q t.toDecoder <;> rw [hrun'] at hrun <;> exact ⟨hrun.1, hrun.2⟩

theorem tracks_held : Tracks fun d d' : Decoder E => d = d' ∧
    (d.sfp = p ∧ d.readNewTraceMessage = b) :=
  Tracks.diagonal fun hu h => ⟨(hu.frame _).1.trans h.1, (hu.frame _).2.1.trans h.2⟩

theorem held_processTraceMessage :
    Leaves (Held (E := E) p b) (attempt DecoderM.processTraceMessage) (fun _ => Held p b) err :=
  held_attempt (Matches.keeps tracks_held.processTraceMessage)

theorem held_updateTime (tstype : TsType) :
    Leaves (Held (E := E) p b) (attempt (DecoderM.updateTime tstype)) (fun _ => Held p b) err :=
  held_attempt (Matches.keeps (tracks_held.updateTime tstype))

theorem stops_fail {pre : Trace E → Prop} : Leaves pre fail post (Stops p) :=
  fun _ _ => ⟨.err, rfl, nofun⟩

theorem stops_ret (rc : DQErr) : Leaves (Held (E := E) p true) (ret rc) post (Stops p) :=
  Leaves.throw fun _ h => ⟨rc, rfl, fun _ => h⟩

theorem stops_ret_of_ne {pre : Trace E → Prop} {rc : DQErr} (h : rc ≠ .ok) :
    Leaves pre (ret rc) post (Stops p) :=
  Leaves.throw fun _ _ => ⟨rc, rfl, fun hrc => absurd hrc h⟩

theorem stops_retire : Leaves (Held (E := E) p b) retire post (Stops p) :=
  fun _ h => ⟨.ok, rfl, fun _ => ⟨h.sfp, rfl⟩⟩

theorem held_resetTraceAll :
    Leaves (Held (E := E) p b) (modifyD Decoder.resetTraceAll) (fun _ => Held p true) err :=
  Leaves.modify fun _ h => ⟨h.sfp, rfl⟩

theorem held_resetTrace :
    Leaves (Held (E := E) p b) (modifyD fun d => d.resetTrace d.currentCore)
      (fun _ => Held p true) err :=
  Leaves.modify fun _ h => ⟨h.sfp, rfl⟩

theorem stops_failTolerantly : Leaves (Held (E := E) p b) failTolerantly post (Stops p) :=
  held_setTolerantError.bind fun _ =>
    (Leaves.onlyIf (fun _ => stops_fail) fun _ _ h => h).bind fun _ => held_resetTrace.bind
      fun _ => stops_ret _

theorem stops_reportFailure : Leaves (Held (E := E) p b) (reportFailure want) post (Stops p) :=
  (held_reportMessage _).bind fun _ => stops_failTolerantly

theorem held_processMessage : Leaves (Held (E := E) p b) (processMessage want) (fun _ => Held p b)
    (Stops p) :=
  held_processTraceMessage.bind fun _ => Leaves.onlyIf (fun _ => stops_reportFailure) fun _ _ h => h

theorem held_processAndReport (message : Decoder E → NexusMessage) :
    Leaves (Held p b) (processAndReport want message) (fun _ => Held p b) (Stops p) :=
  held_processTraceMessage.bind fun _ => (held_reportMessage message).bind fun _ =>
    (Leaves.onlyIf (fun _ => held_setTolerantError.bind fun _ =>
      Leaves.onlyIf (fun _ => stops_fail) fun _ _ h => h) fun _ _ h => h).bind fun _ => Leaves.pure
        fun _ h => h

/-! ### Before decoding -/

theorem stops_skipMessage (message : Decoder E → NexusMessage) :
    Leaves (Held p b) (skipMessage want message) post (Stops p) :=
  held_processTraceMessage.bind fun _ => (Leaves.onlyIf (fun _ => stops_fail) fun _ _ h => h).bind
      fun _ =>
    (held_reportMessage message).bind fun _ => stops_retire

theorem held_nextCAAddr (savedAddr : ADDRESS) :
    Leaves (Held (E := E) p b) (nextCAAddr savedAddr) (fun _ => Held p b) err := by
  refine held_readD.bind fun _ => held_readD.bind fun _ => (held_setStatus _).bind fun _ => ?_
  split
  · exact Leaves.bind (held_modifyD (fun _ => rfl) fun _ => rfl) fun _ => Leaves.pure fun _ h => h
  · exact (held_setStatus _).bind fun _ => Leaves.pure fun _ h => h

theorem held_endCATrace (rc : DQErr) :
    Leaves (Held (E := E) p b) (endCATrace rc) (fun _ => Held p b) (Stops p) :=
  (Leaves.onlyIf (fun h => (held_modifyHere _).bind fun _ => (held_setStatus _).bind fun _ =>
    stops_ret_of_ne (by rw [h]; decide)) fun _ _ h => h).bind fun _ =>
  Leaves.onlyIf (fun h => (held_modifyHere _).bind fun _ => (held_setStatus _).bind fun _ =>
    stops_ret_of_ne h) fun _ _ h => h

theorem held_syncCATrace (teAddr : ADDRESS) (n : ℕ) (savedAddr : ADDRESS) (ca : E.CATrace) :
    Leaves (Held p b) (syncCATrace teAddr n savedAddr ca) (fun _ => Held p b) (Stops p) := by
  induction n generalizing savedAddr ca with
  | zero => exact Leaves.pure fun _ h => h
  | succ n ih =>
    refine held_readD.bind fun _ => Leaves.onlyIf (fun _ => (held_nextCAAddr _).bind fun _ =>
      Leaves.onlyIf (fun _ => ?_) fun _ _ h => h) fun _ _ h => h
    exact Leaves.bind (held_modifyD (fun _ => rfl) fun _ => rfl) fun _ => (held_endCATrace _).bind
      fun _ => ih _ _

theorem held_alignCATrace (teAddr : ADDRESS) (ca : E.CATrace) :
    Leaves (Held p b) (alignCATrace teAddr ca) (fun _ => Held p b) (Stops p) :=
  Leaves.bind (held_modifyD (fun _ => rfl) fun _ => rfl) fun _ => (held_syncCATrace _ _ _ _).bind
      fun _ =>
    held_readD.bind fun _ => Leaves.onlyIf (fun _ => held_modifyD (fun _ => rfl) fun _ => rfl)
      fun _ _ h => h

theorem leaves_syncCATE :
    Leaves (Held (E := E) p false) (syncCATE want) (GoesOn p .getFirstSyncMsg) (Stops p) := by
  refine held_readD.bind fun caTrace => held_readD.bind fun body => held_readD.bind
    fun lastFaddr => ?_
  cases caTrace with
  | none => exact stops_fail
  | some ca =>
    cases body.tcode <;> simp only
    case error =>
      exact (held_updateTime _).bind fun _ => (held_reportMessage _).bind fun _ =>
        Leaves.bind held_resetTraceAll fun _ => stops_retire
    case sync | directBranchWS | indirectBranchWS | indirectBranchHistoryWS | inCircuitTraceWS =>
      rcases startsTrace body with _ | _ | _
      · exact stops_fail
      · exact stops_skipMessage _
      · exact (held_alignCATrace _ _).bind fun _ => goesOn_setState _
    case ownershipTrace | directBranch | indirectBranch | dataAcquisition | inCircuitTrace | correlation
        | resourceFull | indirectBranchHistory | repeatBranch | repeatInstruction | repeatInstructionWS
        | auxAccessReadNext | auxAccessWriteNext | auxAccessResponse | outputPortReplacement
        | inputPortReplacement | auxAccessRead | auxAccessWrite =>
      split_ifs
      · exact stops_skipMessage _
      · exact (held_reportMessage _).bind fun _ => stops_retire
    all_goals exact stops_fail

theorem held_startDecoding : Leaves (Held (E := E) p b) startDecoding (fun _ => Held p b) err :=
  (held_modifyHere _).bind fun _ => held_modifyHere _

theorem held_modify_of_toDecoder {u : Trace E → Trace E}
    (hu : ∀ t, ∃ rc, (u t).toDecoder = { t.toDecoder with status := rc }) :
    Leaves (Held p b) (modify u) (fun _ => Held p b) err := by
  refine Leaves.modify fun t h => ?_
  obtain ⟨rc, hrc⟩ := hu t
  exact ⟨(congrArg Decoder.sfp hrc).trans h.sfp, (congrArg Decoder.readNewTraceMessage hrc).trans
    h.readNew⟩

theorem held_reportSourceHere : Leaves (Held (E := E) p b) (modify reportSourceHere)
    (fun _ => Held p b) err :=
  held_modify_of_toDecoder fun t => ⟨_, reportSourceHere_toDecoder t⟩

theorem held_reportEvent (cksrc : Option ICTReason) :
    Leaves (Held (E := E) p b) (modify (reportEvent want cksrc)) (fun _ => Held p b) err :=
  held_modify_of_toDecoder fun t => ⟨_, reportEvent_toDecoder want cksrc t⟩

theorem held_lookForSync (body : MessageBody) :
    Leaves (Held (E := E) p b) (lookForSync want body) (fun _ => Held p b) (Stops p) := by
  unfold lookForSync
  cases body.tcode <;> simp only
  case sync | directBranchWS | indirectBranchWS | indirectBranchHistoryWS =>
    exact held_processMessage.bind fun _ => (Leaves.onlyIf (fun _ => held_reportSourceHere)
      fun _ _ h => h).bind fun _ => held_startDecoding
  case inCircuitTraceWS =>
    exact held_processMessage.bind fun _ => (held_modifyHere _).bind
        fun _ => Leaves.onlyIf (fun _ =>
      (Leaves.onlyIf (fun _ => held_reportEvent _) fun _ _ h => h).bind fun _ => held_startDecoding) fun _ _ h => h
  case error =>
    exact (held_processAndReport _).bind fun _ => held_resetTraceAll.bind fun _ => stops_ret _
  case dataAcquisition | ownershipTrace | inCircuitTrace | directBranch | indirectBranch | indirectBranchHistory
      | resourceFull | correlation => exact held_processMessage
  all_goals exact (held_reportMessage _).bind fun _ => stops_failTolerantly

theorem stops_getFirstSyncMsg : Leaves (Held (E := E) p b) (getFirstSyncMsg want) post (Stops p) :=
  held_readD.bind fun body => (held_lookForSync body).bind fun _ => held_setReadNew.bind fun _ =>
    (held_reportMessage _).bind fun _ => (held_setStatus _).bind fun _ => stops_ret _

/-! ### Decoding -/

theorem held_retireCounts (body : MessageBody) :
    Leaves (Held (E := E) p b) (retireCounts want body) (fun _ => Held p true) (Stops p) := by
  unfold retireCounts
  cases body.tcode <;> simp only
  case sync | directBranchWS | indirectBranchWS | indirectBranchHistoryWS | directBranch | indirectBranch
      | indirectBranchHistory | resourceFull =>
    refine held_processMessage.bind fun _ => (held_reportMessage _).bind fun _ => Leaves.bind
      (Leaves.onlyIf (fun _ => held_modify_of_toDecoder fun t => ⟨t.status, ?_⟩) fun _ _ h => h)
        fun _ =>
      (Leaves.onlyIf (fun _ => held_modifyHere _) fun _ _ h => h).bind fun _ => held_setReadNew.bind
        fun _ =>
      held_modifyHere _
    split_ifs
    · rfl
    · exact reportSourceHere_toDecoder t
  case correlation => exact (held_processAndReport _).bind fun _ => held_resetTrace.bind fun _ => stops_ret _
  all_goals exact stops_fail

theorem stops_retireMessage : Leaves (Held (E := E) p b) (retireMessage want) post (Stops p) :=
  held_readD.bind fun body => (held_retireCounts body).bind fun _ => (held_setStatus _).bind
    fun _ => stops_ret _

theorem held_setCounts : Leaves (Held (E := E) p b) setCounts (fun _ => Held p b) err :=
  held_readD.bind fun _ => (held_modifyHere _).bind fun _ => Leaves.pure fun _ h => h

theorem stops_retStatus : Leaves (Held (E := E) p true) retStatus post (Stops p) :=
  held_readD.bind fun rc => stops_ret rc

theorem held_switchProcess (prevWasSync : Bool) (prevProcessIndex : Option ℕ) (tag : BitVec 2) :
    Leaves (Held (E := E) p b) (switchProcess prevWasSync prevProcessIndex tag) (fun _ => Held p b)
      (Stops p) := by
  refine held_readD.bind fun processIndex => ?_
  split_ifs with htag
  · cases prevProcessIndex <;> cases processIndex <;> simp only
    · exact held_modifyHere _
    · exact Leaves.onlyIf (fun _ => held_modifyHere _) fun _ _ h => h
    · exact (held_modifyHere _).bind fun _ => held_modifyHere _
    · exact Leaves.pure fun _ h => h
  · exact Leaves.onlyIf (fun _ => stops_ret_of_ne (by decide)) fun _ _ h => h

theorem held_eventAddress (body : MessageBody) :
    Leaves (Held (E := E) p b) (eventAddress want locals body) (fun _ => Held p b) err := by
  unfold eventAddress
  split_ifs
  · exact held_readD
  · exact held_readD
  · exact held_readD.bind fun _ => (held_reportEvent _).bind fun _ => Leaves.pure fun _ h => h
  · exact Leaves.pure fun _ h => h

theorem leaves_getNextMsg :
    Leaves (Held (E := E) p false) (getNextMsg want locals) (GoesOn p .getNextInstruction)
      (Stops p) := by
  refine held_readD.bind fun body => held_readD.bind fun k => ?_
  cases body.tcode <;> simp only
  case directBranch | indirectBranch | sync | directBranchWS | indirectBranchWS | correlation
      | indirectBranchHistory | indirectBranchHistoryWS | resourceFull =>
    split_ifs
    · exact held_setCounts.bind fun _ => (Leaves.onlyIf (fun _ => stops_reportFailure)
        fun _ _ h => h).bind fun _ => goesOn_setState _
    · refine (held_processAndReport _).bind fun _ => Leaves.bind
        (?_ : Leaves _ _ (fun _ t => t.sfp = p) _) fun _ => Leaves.bind
          (?_ : Leaves _ _ (fun _ => Held p true) _) fun _ => stops_ret _
      · exact Leaves.onlyIf (fun _ => Leaves.modify fun _ h => h.sfp) fun _ _ h => h.sfp
      · exact Leaves.modify fun _ h => ⟨h, rfl⟩
  case inCircuitTrace | inCircuitTraceWS =>
    exact held_processMessage.bind fun _ => (held_eventAddress body).bind fun _ =>
      (held_reportMessage _).bind fun _ => held_setReadNew.bind fun _ => stops_retStatus
  case error =>
    exact (held_updateTime _).bind fun _ => (held_reportMessage _).bind
        fun _ => held_resetTraceAll.bind fun _ =>
      held_setReadNew.bind fun _ => stops_retStatus
  case dataAcquisition =>
    exact held_processMessage.bind fun _ => (held_reportMessage _).bind
        fun _ => held_setReadNew.bind fun _ =>
      stops_retStatus
  case ownershipTrace =>
    exact held_processMessage.bind fun _ => (held_switchProcess _ _ _).bind fun _ =>
      (held_reportMessage _).bind fun _ => held_setReadNew.bind fun _ => stops_retStatus
  all_goals exact stops_fail

end TraceM

end TraceDecoder
