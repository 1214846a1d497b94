import TraceDecoder.CallProgress
import TraceDecoder.CoreIds
import TraceDecoder.OutputCalls

/-!
# Core ids in range

With source fields of four bits at most, all core ids that calls meet are those of the cores there
are, so that no array is left. Within these bounds a call returns unless it jams, a run of calls
gets on, and it does not depend on the output pointers.
-/

namespace TraceDecoder

open EStateM SliceFileParser

/-- The parser takes four bits of source at most, and so the ids at hand are those of the cores
there are. Nothing has been written behind the counters of the analytics. -/
structure Decoder.CoresInRange {E : Env} (d : Decoder E) : Prop where
  srcbits : d.sfp.srcbits ≤ 4
  core : d.nm.core < DQR_MAXCORES
  currentCore : d.currentCore < DQR_MAXCORES
  inside : d.analytics.overrun = false

/-! ### Reading -/

theorem readNextTraceMsg_inside {s : SliceFileParser} {analytics : Analytics} {nm : NexusMessage}
    (hsrc : s.srcbits ≤ 4) (hnm : nm.core < DQR_MAXCORES) (hinside : analytics.overrun = false) :
    let r := s.readNextTraceMsg analytics nm
    r.parser.srcbits = s.srcbits ∧ r.nm.core < DQR_MAXCORES ∧ r.analytics.overrun = false := by
  obtain ⟨hkept, hstarts⟩ := readBinaryMsg_starts s
  by_cases hstatus : s.status = .ok
  · rcases hread : readBinaryMsg s with ⟨rc, haveMsg, s₁⟩
    rw [hread] at hkept hstarts
    simp only [readNextTraceMsg, hstatus, hread, ne_eq, not_true_eq_false, if_false]
    by_cases hrc : rc = .ok
    · obtain ⟨hhave, hs₁⟩ := hstarts hrc
      simp only at hhave hs₁
      have hkeeps := keeps_parseTraceMsg_srcbits s.srcbits s₁ hs₁.srcbits
      have hsmall := leaves_parseTraceMsg_coreId (leaves_parseSrc_small hsrc) s₁ hs₁
      subst hrc hhave
      simp only [Bool.true_eq_false, if_false]
      cases hrun : parseTraceMsg s₁ with
      | error e s₂ =>
        rw [hrun] at hkeeps
        exact ⟨hkeeps, hnm, hinside⟩
      | ok m s₂ =>
        rw [hrun] at hkeeps hsmall
        have hcore : m.coreId.toNat < DQR_MAXCORES :=
          Nat.lt_of_lt_of_le hsmall (Nat.pow_le_pow_right (by decide) hsrc)
        have hoverrun : (analytics.overrun || decide (DQR_MAXCORES ≤ m.coreId.toNat)) = false := by
          rw [hinside, decide_eq_false (Nat.not_le.mpr hcore)]
          rfl
        simp only
        split_ifs
        · exact ⟨hkeeps, hcore, hoverrun⟩
        · exact ⟨hkeeps, hcore, hoverrun⟩
    · cases rc
      · exact absurd rfl hrc
      all_goals exact ⟨hkept, hnm, hinside⟩
  · simp only [readNextTraceMsg, hstatus, ne_eq, not_false_eq_true, if_true]
    exact ⟨trivial, hnm, hinside⟩

variable {E : Env}

/-! ### The states -/

open TraceM

def InRange (t t' : Trace E) : Prop := t = t' ∧ t.CoresInRange

theorem Decoder.CoresInRange.of_eq {d d' : Decoder E} (h : d.CoresInRange) (hsfp : d'.sfp = d.sfp)
    (hnm : d'.nm.core = d.nm.core) (hcurrent : d'.currentCore = d.currentCore)
    (hanalytics : d'.analytics = d.analytics) : d'.CoresInRange :=
  ⟨hsfp ▸ h.srcbits, hnm ▸ h.core, hcurrent ▸ h.currentCore, hanalytics ▸ h.inside⟩

theorem coresInRange_msgUpdate {u : Decoder E → Decoder E} (hu : MsgUpdate u) {d : Decoder E}
    (h : d.CoresInRange) : (u d).CoresInRange := by
  cases hu <;> exact h.of_eq rfl rfl rfl rfl

theorem coresInRange_stateUpdate {u : Decoder E → Decoder E} (hu : StateUpdate u) {d : Decoder E}
    (h : d.CoresInRange) : (u d).CoresInRange := by
  cases hu with
  | msg hu => exact coresInRange_msgUpdate hu h
  | instruction instSize crFlags brFlags hsize =>
    refine ⟨h.srcbits, h.core, h.currentCore, ?_⟩
    change (d.analytics.overrun || decide (DQR_MAXCORES ≤ d.currentCore)) = false
    rw [h.inside, decide_eq_false (Nat.not_le.mpr h.currentCore)]
    rfl
  | _ => exact h.of_eq rfl rfl rfl rfl

theorem coresInRange_caUpdate {u : Decoder E → Decoder E} (hu : CAUpdate u) {d : Decoder E}
    (h : d.CoresInRange) : (u d).CoresInRange := by
  cases hu <;> exact h.of_eq rfl rfl rfl rfl

theorem coresInRange_resetAll {d : Decoder E} (h : d.CoresInRange) : d.resetTraceAll.CoresInRange :=
  ⟨h.srcbits, h.core, by change 0 < DQR_MAXCORES; decide, h.inside⟩

/-- What is done with the output pointers leaves the ids alone. -/
theorem matches_inRange {v : Trace E → Trace E}
    (hv : ∀ t : Trace E, t.CoresInRange → (v t).CoresInRange) :
    Matches InRange InRange (modify v : TraceM E Unit) (modify v) :=
  Matches.modify fun t t' ⟨heq, ht⟩ => by
    subst heq
    exact ⟨rfl, hv t ht⟩

theorem coresInRange_report (m : NexusMessage) {t : Trace E} (h : t.CoresInRange) :
    (report m t).CoresInRange := by
  unfold report
  split
  · exact h
  · exact h.of_eq rfl rfl rfl rfl

theorem coresInRange_reportSourceHere {t : Trace E} (h : t.CoresInRange) :
    (reportSourceHere t).CoresInRange := by
  rw [reportSourceHere_toDecoder]
  exact h

theorem coresInRange_reportEvent (want : Want) (cksrc : Option ICTReason) {t : Trace E}
    (h : t.CoresInRange) : (reportEvent want cksrc t).CoresInRange := by
  rw [reportEvent_toDecoder]
  exact h.of_eq rfl rfl rfl rfl

theorem inRange_shares : Shares (InRange (E := E)) where
  similar := by
    rintro t _ ⟨rfl, -⟩
    exact Similar.refl _
  status h := congrArg (·.status) h.1
  traceType h := congrArg (·.traceType) h.1
  analytics h := congrArg (·.analytics.status) h.1
  caTrace h := congrArg (·.caTrace) h.1
  caSyncAddr h := congrArg (·.caSyncAddr) h.1
  syncCount h := congrArg (·.syncCount) h.1
  readNew h := congrArg (·.readNewTraceMessage) h.1
  closed := by
    rintro u t _ hu ⟨rfl, ht⟩
    exact ⟨rfl, coresInRange_stateUpdate hu ht⟩
  switches := by
    rintro ty t _ - ⟨rfl, ht⟩
    exact ⟨rfl, ht.of_eq rfl rfl rfl rfl⟩
  ca := .inr <| by
    rintro u t _ hu ⟨rfl, ht⟩
    exact ⟨rfl, coresInRange_caUpdate hu ht⟩

theorem inRange_message (want : Want) (m : Decoder E → NexusMessage) :
    Matches InRange InRange (reportMessage want m) (reportMessage want m) :=
  Matches.onlyIf fun _ => matches_inRange fun _ ht => coresInRange_report _ ht

theorem inRange_lockstep (want : Want) (locals : Locals) :
    Lockstep want want locals locals (InRange (E := E)) where
  toShares := inRange_shares
  resetsAll := .inr <| by
    rintro t _ ⟨rfl, ht⟩
    exact ⟨rfl, coresInRange_resetAll ht⟩
  message _ := inRange_message want _
  sourceHere := by
    have hsource : Matches InRange InRange (onlyIf want.src (modify reportSourceHere) : TraceM E
        Unit) (onlyIf want.src (modify reportSourceHere)) :=
      Matches.onlyIf fun _ => matches_inRange fun t ht => coresInRange_reportSourceHere ht
    intro t t' h
    have hrun := hsource t t' h.rel
    rw [onlyIf_run, onlyIf_run] at hrun ⊢
    exact hrun.2
  sourceOnce := Matches.onlyIf fun _ => matches_inRange fun t ht => by
    split_ifs
    · exact ht
    · exact coresInRange_reportSourceHere ht
  event reason := matches_inRange fun t ht => coresInRange_reportEvent _ _ ht
  ict body _ := by
    refine Matches.bind ?_ fun addr => inRange_message want _
    rintro t _ ⟨rfl, ht⟩
    rw [eventAddress_run]
    split_ifs
    · exact ⟨rfl, rfl, ht⟩
    · exact ⟨rfl, rfl, ht⟩
    · exact ⟨rfl, rfl, coresInRange_reportEvent _ _ ht⟩
    · exact ⟨rfl, rfl, coresInRange_reportEvent _ _ ht⟩
  shows := by
    rintro t _ a - ⟨rfl, ht⟩
    exact ⟨rfl, by rw [disassemble_toDecoder]; exact ht⟩
  step s ca := by
    rintro t _ ⟨⟨rfl, ht⟩, -, -⟩
    rw [reportStep_run]
    refine ⟨rfl, ?_⟩
    cases want.inst <;> cases want.src <;> exact ht.of_eq rfl rfl rfl rfl

/-! ### Calls -/

theorem coresInRange_checkRead (rc : DQErr) :
    Matches (Fresh (InRange (E := E))) (Fresh InRange) (checkRead rc) (checkRead rc) := by
  have hshares : Shares (Fresh (InRange (E := E))) := inRange_shares.fresh
  cases rc
  case ok => exact Matches.pure
  case eof => exact (hshares.setState _).bind fun _ => (hshares.setStatus _).bind fun _ =>
    matches_ret
  case bm =>
    refine (hshares.modifyD .tolerantError).bind fun _ => ?_
    split_ifs
    · refine Matches.modify fun t t' h => ?_
      obtain ⟨⟨rfl, ht⟩, hset, hset'⟩ := h
      exact ⟨⟨rfl, coresInRange_resetAll ht⟩, hset, hset'⟩
    · exact (hshares.setState _).bind fun _ => matches_ret
  all_goals exact hshares.fail

theorem inRange_readMessages (n : ℕ) :
    Matches (Fresh (InRange (E := E))) (Fresh InRange) (readMessages n) (readMessages n) := by
  induction n with
  | zero => exact Matches.throw fun _ _ h => h
  | succ n ih =>
    rintro t _ ⟨⟨rfl, ht⟩, hset, hset'⟩
    obtain ⟨hsrc, hcore, hinside⟩ :=
      readNextTraceMsg_inside ht.srcbits (show t.nm.core < DQR_MAXCORES from ht.core) ht.inside
    rw [readMessages_succ]
    exact ((coresInRange_checkRead _).bind fun _ => Matches.onlyIf fun _ => ih) _ _
      ⟨⟨rfl, hsrc ▸ ht.srcbits, hcore, ht.currentCore, hinside⟩, hset, hset'⟩

theorem inRange_prepare (want : Want) :
    Coupled (Fresh (InRange (E := E))) (prepare want) (prepare want)
      (fun wanted wanted' t t' => PutAside want want wanted wanted' ∧ Fresh InRange t t')
      (Fresh InRange) := by
  have hshares : Shares (Fresh (InRange (E := E))) := inRange_shares.fresh
  have hmodify {u : Decoder E → Decoder E} (hu : ∀ d, d.CoresInRange → (u d).CoresInRange) :
      Matches (Fresh (InRange (E := E))) (Fresh InRange) (modifyD u) (modifyD u) :=
    Matches.modify fun t t' ⟨⟨heq, ht⟩, hset, hset'⟩ => by
      subst heq
      exact ⟨⟨rfl, hu _ ht⟩, hset, hset'⟩
  have hbegin : Matches (Fresh (InRange (E := E))) (Fresh InRange)
      (modifyD fun d => { d with readNewTraceMessage := false, currentCore := d.nm.core })
      (modifyD fun d => { d with readNewTraceMessage := false, currentCore := d.nm.core }) :=
    hmodify fun d hd => ⟨hd.srcbits, hd.core, hd.core, hd.inside⟩
  have hextend : Matches (Fresh (InRange (E := E))) (Fresh InRange) signExtendAddrs
      signExtendAddrs := by
    refine Matches.onlyIf fun _ => hshares.readBody.bind fun body => ?_
    cases signExtendBody E.bitsPerAddress body with
    | some body => exact hmodify fun d hd => hd.of_eq rfl rfl rfl rfl
    | none => exact hshares.fail
  have hswitch : Matches (Fresh (InRange (E := E))) (Fresh InRange) switchTraceType
      switchTraceType := by
    refine Matches.bind (Matches.read fun _ _ h => hshares.traceType h) fun traceType =>
      Matches.onlyIf fun _ => hshares.readBody.bind fun body => ?_
    cases traceTypeAfter body with
    | some ty => exact hmodify fun d hd => hd.of_eq rfl rfl rfl rfl
    | none => exact hshares.fail
  refine Coupled.bind_same hbegin fun _ => Coupled.bind_same hextend fun _ =>
    Coupled.bind_same hswitch fun _ => Coupled.bind_same hshares.readBody fun body =>
    Coupled.pure fun t t' h => ⟨?_, h⟩
  unfold filterWant
  split_ifs
  · exact .inr ⟨rfl, rfl⟩
  · exact .inl ⟨rfl, rfl⟩

/-- A call that begins with all core ids in range ends so. -/
theorem coresInRange_loop {want : Want} {locals : Locals} {t t₁ : Trace E} (ht : t.CoresInRange)
    (hset : t.instSet = false) {fuel n : ℕ} (hn : 4 ≤ n) {e : Exit}
    (hrun : loop fuel want locals (n + 1) t = .error e t₁) : t₁.CoresInRange := by
  have hlockstep : Lockstep want want locals locals (InRange (E := E)) :=
    inRange_lockstep want locals
  have hstart : Fresh InRange t t := ⟨⟨rfl, ht⟩, hset, hset⟩
  cases hread : t.readNewTraceMessage with
  | false => exact (hlockstep.loopAlike hstart hread hn hrun hrun).2.2
  | true =>
    rw [loop_of_message hread] at hrun
    rcases (inRange_readMessages fuel).fails hstart hrun hrun with
      ⟨-, h⟩ | ⟨-, -, t₂, t₂', -, -, ⟨-, h₂⟩, hrest, hrest'⟩
    · exact h.rel.2
    obtain ⟨⟨rfl, -⟩, -⟩ := id h₂
    rcases (inRange_prepare want).fails h₂ hrest hrest' with
      ⟨-, h⟩ | ⟨wanted, wanted', t₃, t₃', hp, -, ⟨haside, h₃⟩, hwork, hwork'⟩
    · exact h.rel.2
    have hheld : Held t₂.sfp false t₃ := (leaves_prepare want).of_ok rfl hp
    exact (hlockstep.afterPrepare haside h₃ hheld.readNew hn hwork hwork').2.2

theorem Trace.Returns.coresInRange {want : Want} {locals : Locals} {t t' : Trace E} {rc : DQErr}
    (h : t.Returns want locals rc t') (ht : t.CoresInRange) : t'.CoresInRange := by
  obtain ⟨n, hrun⟩ := h
  have hcall := hrun (n + 5) (by omega)
  rw [Trace.NextInstruction] at hcall
  by_cases hok : t.status = .ok
  · rw [if_neg (not_not.mpr hok)] at hcall
    cases hloop : loop (n + 5) want locals (n + 5) t.start with
    | ok => simp [hloop] at hcall
    | error e t₁ =>
      have hstart : t.start.CoresInRange := ht.of_eq rfl rfl rfl rfl
      have ht₁ : t₁.CoresInRange := coresInRange_loop hstart rfl (n := n + 4) (by omega) hloop
      rw [hloop] at hcall
      cases e with
      | outOfFuel => cases hcall
      | ret rc =>
        cases hcall
        exact ht₁
  · rw [if_pos hok] at hcall
    cases hcall
    exact ht.of_eq rfl rfl rfl rfl

/-! ### A trace of one instruction -/

def allWanted : Want := ⟨true, true, true⟩

/-- The trace behind `n` calls of a caller who wants everything. -/
def callsOf (t : Trace E) : ℕ → Trace E
  | 0 => t
  | n + 1 => (((callsOf t n).NextInstruction 10 allWanted noLocals).map Prod.snd).getD (callsOf t n)

def rcOf (t : Trace E) (n : ℕ) : DQErr :=
  (((callsOf t n).NextInstruction 10 allWanted noLocals).map Prod.fst).getD .err

theorem callsOf_returns {t : Trace E} {n : ℕ}
    (h : ((callsOf t n).NextInstruction 10 allWanted noLocals).isSome) :
    (callsOf t n).Returns allWanted noLocals (rcOf t n) (callsOf t (n + 1)) := by
  obtain ⟨⟨rc, t'⟩, hcall⟩ := Option.isSome_iff_exists.mp h
  rw [callsOf, rcOf, hcall]
  exact Trace.returns_of_some hcall

theorem syncedTrace_coresInRange : syncedTrace.CoresInRange :=
  ⟨by decide, by decide, by decide, rfl⟩

theorem coresInRange_calls {t : ℕ → Trace E} {want : ℕ → Want} {locals : ℕ → Locals}
    {rc : ℕ → DQErr} {N : ℕ} (h : ∀ n < N, (t n).Returns (want n) (locals n) (rc n) (t (n + 1)))
    (hrange : (t 0).CoresInRange) : ∀ n ≤ N, (t n).CoresInRange := by
  intro n hn
  induction n with
  | zero => exact hrange
  | succ n ih => exact (h n hn).coresInRange (ih (by omega))

end TraceDecoder
