import TraceDecoder.CallReading

/-!
# The states of a call

A call works on its message in at most three states, and the state it ends in is known from the one
it starts in.
-/

namespace TraceDecoder

open EStateM SliceFileParser

variable {E : Env}

namespace TraceM

/-! ### The states of a call -/

variable {p : SliceFileParser} {want : Want} {locals : Locals}

def nextStep (d : Decoder E) : Except DQErr Stepped :=
  nextAddr (d.here.memory E) E.archSize d.traceType d.here.counts d.nm d.here.currentAddress

/-- An instruction has been run, and what is left of the counts is for the
instructions behind it. -/
structure RunsOn (p : SliceFileParser) (result : Except DQErr Stepped) (t : Trace E) : Prop where
  held : Held p false t
  state : t.here.state = .getNextInstruction
  counts : ∃ s, result = .ok s ∧ t.here.counts = s.count
  pending : t.here.counts.getCurrentCountType ≠ .none

/-- A call ends; if it ends well, its message is used up, or an instruction has been run. -/
def Yields (p : SliceFileParser) (result : Except DQErr Stepped) (e : Exit) (t : Trace E) : Prop :=
  Stops p e t ∨ e = .ret .ok ∧ RunsOn p result t

structure Walking (p : SliceFileParser) (c : Count) (t : Trace E) : Prop where
  held : Held p false t
  state : t.here.state = .getNextInstruction
  counts : t.here.counts = c

variable {result : Except DQErr Stepped} {c : Count} {post : Unit → Trace E → Prop}

theorem yields_of_stops {pre : Trace E → Prop} {q : TraceM E Unit}
    (h : Leaves pre q post (Stops p)) :
    Leaves pre q post (Yields p result) :=
  h.weaken (fun _ h => h) (fun _ _ h => h) fun _ _ h => .inl h

theorem leaves_anywhere {pre : Trace E → Prop} {u : Trace E → Trace E}
    {err : Exit → Trace E → Prop} :
    Leaves pre (modify u : TraceM E Unit) (fun _ _ => True) err := Leaves.modify fun _ _ => trivial

theorem yields_ret_of_ne {pre : Trace E → Prop} {rc : DQErr} (h : rc ≠ .ok) :
    Leaves pre (ret rc) post (Yields p result) :=
  yields_of_stops (stops_ret_of_ne h)

theorem walking_modify {u : Trace E → Trace E} (hsfp : ∀ t, (u t).sfp = t.sfp)
    (hread : ∀ t, (u t).readNewTraceMessage = t.readNewTraceMessage)
    (hhere : ∀ t, (u t).here.state = t.here.state ∧ (u t).here.counts = t.here.counts) :
    Leaves (Walking p c) (modify u) (fun _ => Walking p c) (Yields p result) :=
  Leaves.modify fun t h => ⟨⟨(hsfp t).trans h.held.sfp, (hread t).trans h.held.readNew⟩,
    (hhere t).1.trans h.state, (hhere t).2.trans h.counts⟩

theorem walking_modifyD {u : Decoder E → Decoder E} (hsfp : ∀ d, (u d).sfp = d.sfp)
    (hread : ∀ d, (u d).readNewTraceMessage = d.readNewTraceMessage)
    (hhere : ∀ d, (u d).here = d.here) :
    Leaves (Walking p c) (modifyD u) (fun _ => Walking p c) (Yields p result) :=
  walking_modify (fun _ => hsfp _) (fun _ => hread _) fun t =>
    ⟨congrArg CoreState.state (hhere t.toDecoder), congrArg CoreState.counts (hhere t.toDecoder)⟩

theorem walking_modifyHere {f : CoreState → CoreState}
    (hf : ∀ k, (f k).state = k.state ∧ (f k).counts = k.counts) :
    Leaves (Walking (E := E) p c) (modifyHere f) (fun _ => Walking p c) (Yields p result) :=
  walking_modify (fun _ => rfl) (fun _ => rfl) fun t => by
    have hhere : (t.toDecoder.modifyHere f).here = f t.here := Decoder.here_modifyHere t.toDecoder f
    exact ⟨(congrArg CoreState.state hhere).trans (hf t.here).1,
      (congrArg CoreState.counts hhere).trans (hf t.here).2⟩

theorem walking_setStatus (rc : DQErr) :
    Leaves (Walking (E := E) p c) (setStatus rc) (fun _ => Walking p c) (Yields p result) :=
  walking_modifyD (fun _ => rfl) (fun _ => rfl) fun _ => rfl

theorem walking_readD {α : Type} {g : Decoder E → α} : Leaves (Walking p c) (readD g) (fun _ => Walking p c) (Yields p result) :=
  Leaves.read fun _ h => h

theorem walking_endCATrace (rc : DQErr) :
    Leaves (Walking (E := E) p c) (endCATrace rc) (fun _ => Walking p c) (Yields p result) := by
  have hend {rc : DQErr} {s : State} (h : rc ≠ .ok) :
      Leaves (Walking (E := E) p c) (do setState s; setStatus rc; ret rc) (fun _ => Walking p c)
        (Yields p result) :=
    leaves_anywhere.bind fun _ => leaves_anywhere.bind fun _ => yields_ret_of_ne h
  have heof : Leaves (Walking (E := E) p c) (onlyIf (rc = .eof) do setState .done; setStatus rc; ret rc)
      (fun _ => Walking p c) (Yields p result) := Leaves.onlyIf (fun heof => hend (by simp [heof])) fun _ _ h => h
  exact heof.bind fun _ => Leaves.onlyIf (fun hne => hend hne) fun _ _ h => h

theorem walking_trySync : Leaves (Walking (E := E) p c) trySync (fun _ => Walking p c)
    (Yields p result) := by
  refine walking_readD.bind fun syncCount => Leaves.onlyIf (fun _ => ?_) fun _ _ h => h
  refine Leaves.bind (Leaves.read fun _ h => h) fun address => walking_readD.bind
    fun caSyncAddr => ?_
  have hset (n : ℕ) : Leaves (Walking (E := E) p c) (modifyD ({ · with syncCount := n }))
      (fun _ => Walking p c) (Yields p result) :=
    walking_modifyD (fun _ => rfl) (fun _ => rfl) fun _ => rfl
  split_ifs
  · exact hset 0
  · exact (hset _).bind fun _ => Leaves.onlyIf (fun _ => yields_of_stops stops_fail) fun _ _ h => h

theorem walking_consumeCATrace (inst_type : InstType) :
    Leaves (Walking (E := E) p c) (consumeCATrace inst_type) (fun _ => Walking p c)
      (Yields p result) := by
  refine walking_readD.bind fun caTrace => ?_
  cases caTrace with
  | none => exact Leaves.pure fun _ h => h
  | some ca =>
    refine walking_trySync.bind fun _ => walking_readD.bind fun syncCount => ?_
    split_ifs
    · refine Leaves.bind (walking_modifyD (fun _ => rfl) (fun _ => rfl) fun _ => rfl) fun _ => ?_
      refine (walking_endCATrace _).bind fun _ => (walking_setStatus _).bind
        fun _ => walking_readD.bind fun _ => ?_
      exact Leaves.bind (walking_modifyHere fun _ => ⟨rfl, rfl⟩) fun _ => Leaves.pure fun _ h => h
    · exact Leaves.pure fun _ h => h

theorem walking_reportInstruction (s : Stepped) (ca : Option (CAInfo × BitVec 32)) :
    Leaves (Walking (E := E) p c) (modify (reportInstruction locals s ca)) (fun _ => Walking p c)
      (Yields p result) :=
  walking_modify (fun _ => rfl) (fun _ => rfl) fun t => by
    have hhere : (reportInstruction locals s ca t).here =
        { t.here with enterISR := CRFlag.isNone } :=
      Decoder.here_modifyHere t.toDecoder _
    rw [hhere]
    exact ⟨rfl, rfl⟩

theorem leaves_retireInstruction (d : DecodedInst) {s : Stepped} (hstep : result = .ok s) :
    Leaves (Walking (E := E) p s.count) (retireInstruction want locals d s)
      (GoesOn p .retireMessage) (Yields p result) := by
  refine Leaves.bind (walking_modifyHere fun _ => ⟨rfl, rfl⟩)
    fun _ => (walking_consumeCATrace _).bind fun ca => ?_
  have hinst : Leaves (Walking (E := E) p s.count)
      (onlyIf want.inst (modify (reportInstruction locals s ca))) (fun _ => Walking p s.count)
        (Yields p result) :=
    Leaves.onlyIf (fun _ => walking_reportInstruction s ca) fun _ _ h => h
  have hsrc : Leaves (Walking (E := E) p s.count) (onlyIf want.src (modify reportSource))
      (fun _ => Walking p s.count) (Yields p result) :=
    Leaves.onlyIf (fun _ => walking_modify (fun _ => rfl) (fun _ => rfl) fun _ => ⟨rfl, rfl⟩)
      fun _ _ h => h
  refine hinst.bind fun _ => hsrc.bind fun _ => ?_
  refine Leaves.bind (walking_modifyD (fun _ => rfl) (fun _ => rfl) fun _ => rfl)
    fun _ => walking_readD.bind fun status => ?_
  have hstatus : Leaves (Walking (E := E) p s.count) (onlyIf (status ≠ .ok) do setState .error; ret status)
      (fun _ t => status = .ok ∧ Walking p s.count t) (Yields p result) :=
    Leaves.onlyIf (fun hne => leaves_anywhere.bind fun _ => yields_ret_of_ne hne) fun hok _ h => ⟨not_not.mp hok, h⟩
  refine (walking_setStatus _).bind fun _ => hstatus.bind fun _ => ?_
  -- the counts that are left decide whether the message is used up
  have hcounts : Leaves (fun t : Trace E => status = .ok ∧ Walking p s.count t)
      (readD (·.here.counts.getCurrentCountType)) (fun count t => status = .ok ∧ Walking p s.count
        t ∧ t.here.counts.getCurrentCountType = count) (Yields p result) :=
    Leaves.read fun t h => ⟨h.1, h.2, rfl⟩
  refine hcounts.bind fun count => ?_
  split_ifs with hcount
  · intro t ⟨hok, hwalk, hleft⟩
    rw [hok]
    exact .inr ⟨rfl, hwalk.held, hwalk.state, ⟨s, hstep, hwalk.counts⟩, by rwa [hleft]⟩
  · exact (goesOn_setState _).weaken (fun _ h => h.2.1.held) (fun _ _ h => h) fun _ _ h => h

theorem leaves_getNextInstruction (want : Want) (locals : Locals) {t₀ : Trace E}
    (hread : t₀.readNewTraceMessage = false) (hstate : t₀.here.state = .getNextInstruction) :
    Leaves (fun t => t = t₀) (getNextInstruction want locals) (GoesOn t₀.sfp .retireMessage)
      (Yields t₀.sfp (nextStep t₀.toDecoder)) := by
  have hheld : ∀ t, t = t₀ → Held t₀.sfp false t := by
    rintro t rfl
    exact ⟨rfl, hread⟩
  have hretire : Leaves (Held (E := E) t₀.sfp false) (setState .retireMessage)
      (GoesOn t₀.sfp .retireMessage) (Yields t₀.sfp (nextStep t₀.toDecoder)) := goesOn_setState _
  have hfailure : Leaves (Held (E := E) t₀.sfp false) (reportFailure want)
      (GoesOn t₀.sfp .retireMessage) (Yields t₀.sfp (nextStep t₀.toDecoder)) :=
        yields_of_stops stops_reportFailure
  have hfailed (rc : DQErr) : Leaves (Held (E := E) t₀.sfp false) (do setStatus rc; reportFailure want) (GoesOn t₀.sfp .retireMessage)
      (Yields t₀.sfp (nextStep t₀.toDecoder)) := (held_setStatus rc).bind fun _ => hfailure
  refine Leaves.read_bind (a := t₀.here) (fun t ht => by rw [ht]) ?_
  split_ifs
  · exact hretire.weaken hheld (fun _ _ h => h) fun _ _ h => h
  · exact leaves_anywhere.bind fun _ => yields_ret_of_ne (by simp)
  · cases (t₀.here.memory E).word t₀.here.currentAddress with
    | none => exact (hfailed .err).weaken hheld (fun _ _ h => h) fun _ _ h => h
    | some inst =>
      have hok : Leaves (fun t => t = t₀) (setStatus .ok) (fun _ t => t.toDecoder =
          { t₀.toDecoder with status := .ok }) (Yields t₀.sfp (nextStep t₀.toDecoder)) :=
            Leaves.modify fun t ht => by rw [ht]
      have hheld' : ∀ t : Trace E, t.toDecoder = { t₀.toDecoder with status := .ok } →
          Held t₀.sfp false t :=
        fun t ht => ⟨(congrArg Decoder.sfp ht).trans rfl,
          (congrArg Decoder.readNewTraceMessage ht).trans hread⟩
      refine hok.bind fun _ => ?_
      cases Disassembler.decodeInstruction inst E.archSize with
      | none => exact hfailure.weaken hheld' (fun _ _ h => h) fun _ _ h => h
      | some d =>
        have hdisassemble : Leaves (fun t : Trace E => t.toDecoder =
            { t₀.toDecoder with status := .ok }) (modify (disassemble t₀.here.currentAddress))
              (fun _ t => t.toDecoder = { t₀.toDecoder with status := .ok })
            (Yields t₀.sfp (nextStep t₀.toDecoder)) :=
              Leaves.modify fun t ht => (disassemble_toDecoder _ t).trans ht
        refine hdisassemble.bind fun _ => Leaves.read_bind (a := nextStep t₀.toDecoder)
          (fun t ht => ?_) ?_
        · change nextAddr _ _ t.traceType _ t.nm _ = _
          rw [ht]
          rfl
        cases hstep : nextStep t₀.toDecoder with
        | error => exact (hstep ▸ hfailed .err).weaken hheld' (fun _ _ h => h) fun _ _ h => h
        | ok s =>
          rw [hstep] at hretire hfailure
          have htype : Leaves (fun t : Trace E => t.toDecoder = { t₀.toDecoder with status := .ok })
              (modifyD ({ · with traceType := s.traceType }))
              (fun _ t => t.toDecoder =
                { t₀.toDecoder with status := .ok, traceType := s.traceType })
                (Yields t₀.sfp (.ok s)) :=
            Leaves.modify fun t ht => by rw [ht]
          have hcounts : Leaves (fun t : Trace E => t.toDecoder =
              { t₀.toDecoder with status := .ok, traceType := s.traceType })
                (modifyHere ({ · with counts := s.count })) (fun _ => Walking t₀.sfp s.count)
                  (Yields t₀.sfp (.ok s)) := by
            refine Leaves.modify fun t ht => ?_
            rw [ht]
            refine ⟨⟨rfl, hread⟩, ?_, ?_⟩
            · exact (congrArg CoreState.state (Decoder.here_modifyHere _ _)).trans hstate
            · exact congrArg CoreState.counts (Decoder.here_modifyHere _ _)
          refine htype.bind fun _ => hcounts.bind fun _ => ?_
          split_ifs
          · exact hretire.weaken (fun _ h => h.held) (fun _ _ h => h) fun _ _ h => h
          · have hnone : Leaves (Walking (E := E) t₀.sfp s.count)
                (onlyIf (s.pc = -1 ∧ s.count.getCurrentCountType ≠ .none) (reportFailure want))
                  (fun _ => Walking t₀.sfp s.count) (Yields t₀.sfp (.ok s)) :=
              Leaves.onlyIf (fun _ => yields_of_stops
                (stops_reportFailure.weaken (fun _ h => h.held) (fun _ _ h => h) fun _ _ h => h))
                  fun _ _ h => h
            exact hnone.bind fun _ => leaves_retireInstruction d rfl

/-! ### A call -/

def turns : State → ℕ
  | .getNextMsg => 3
  | .syncCATE | .getNextInstruction => 2
  | _ => 1

structure Ended (t : Trace E) (rc : DQErr) (t' : Trace E) : Prop where
  left : rc = .ok → Held t.sfp true t' ∨ 1 < turns t.here.state ∧ Held t.sfp false t' ∧
    t'.here.state = .getNextInstruction ∧
      (t.here.state = .getNextInstruction → ∃ s, nextStep t.toDecoder = .ok s ∧
      t'.here.counts = s.count)

def EndsOrGoesOn (q : TraceM E Unit) (t : Trace E) : Prop :=
  (∃ rc t', q t = .error (.ret rc) t' ∧ Ended t rc t') ∨
    ∃ t', q t = .ok () t' ∧ Held t.sfp false t' ∧ turns t'.here.state < turns t.here.state

theorem ended_of_stops {t t' : Trace E} {e : Exit} (h : Stops t.sfp e t') :
    ∃ rc, e = .ret rc ∧ Ended t rc t' := by
  obtain ⟨rc, rfl, hheld⟩ := h
  exact ⟨rc, rfl, ⟨fun hok => .inl (hheld hok)⟩⟩

theorem endsOrGoesOn_of_stops {q : TraceM E Unit} {t : Trace E} {pre : Trace E → Prop}
    {post : Unit → Trace E → Prop} (h : Leaves pre q post (Stops t.sfp)) (hpre : pre t)
    (hpost : ∀ t', post () t' → Held t.sfp false t' ∧ turns t'.here.state < turns t.here.state) :
    EndsOrGoesOn q t := by
  have hrun := h t hpre
  cases hq : q t with
  | ok u t' =>
    rw [hq] at hrun
    exact .inr ⟨t', hq, hpost t' hrun⟩
  | error e t' =>
    rw [hq] at hrun
    obtain ⟨rc, rfl, hended⟩ := ended_of_stops hrun
    exact .inl ⟨rc, t', hq, hended⟩

def workIn (want : Want) (locals : Locals) : State → TraceM E Unit
  | .syncCATE => syncCATE want
  | .getFirstSyncMsg => getFirstSyncMsg want
  | .retireMessage => retireMessage want
  | .getNextMsg => getNextMsg want locals
  | .getNextInstruction => getNextInstruction want locals
  | .done => do
    setStatus .done
    ret .done
  | .error => do
    setStatus .err
    ret .err

theorem work_of_state {s : State} (want : Want) (locals : Locals) {t : Trace E}
    (hs : t.here.state = s) :
    work want locals t = workIn want locals s t := by
  subst hs
  unfold work workIn
  rfl

/-- Each state ends the call or goes on in a later one. -/
theorem work_endsOrGoesOn (want : Want) (locals : Locals) {t : Trace E}
    (hread : t.readNewTraceMessage = false) : EndsOrGoesOn (work want locals) t := by
  have hheld : Held t.sfp false t := ⟨rfl, hread⟩
  have hends {q : TraceM E Unit} (h : Leaves (Held t.sfp false) q (fun _ _ => False)
      (Stops t.sfp)) : EndsOrGoesOn q t :=
    endsOrGoesOn_of_stops h hheld fun _ h => h.elim
  have hdone (rc : DQErr) (hrc : rc ≠ .ok) : Leaves (Held (E := E) t.sfp false)
      (do setStatus rc; ret rc) (fun _ _ => False) (Stops t.sfp) :=
        leaves_anywhere.bind fun _ => stops_ret_of_ne hrc
  have hsame {q : TraceM E Unit} (hq : EndsOrGoesOn q t) (h : work want locals t = q t) :
      EndsOrGoesOn (work want locals) t := by
    unfold EndsOrGoesOn
    rw [h]
    exact hq
  cases hstate : t.here.state
  case syncCATE =>
    refine hsame (endsOrGoesOn_of_stops leaves_syncCATE hheld fun t' h => ⟨h.1, ?_⟩)
      (work_of_state want locals hstate)
    simp [h.2, hstate, turns]
  case getFirstSyncMsg =>
    exact hsame (hends stops_getFirstSyncMsg) (work_of_state want locals hstate)
  case retireMessage => exact hsame (hends stops_retireMessage) (work_of_state want locals hstate)
  case getNextMsg =>
    refine hsame (endsOrGoesOn_of_stops leaves_getNextMsg hheld fun t' h => ⟨h.1, ?_⟩)
      (work_of_state want locals hstate)
    simp [h.2, hstate, turns]
  case getNextInstruction =>
    refine hsame (q := getNextInstruction want locals) ?_ (work_of_state want locals hstate)
    have hrun := leaves_getNextInstruction want locals hread hstate t rfl
    cases hq : getNextInstruction want locals t with
    | ok u t' =>
      rw [hq] at hrun
      refine .inr ⟨t', hq, hrun.1, ?_⟩
      simp [hrun.2, hstate, turns]
    | error e t' =>
      rw [hq] at hrun
      rcases hrun with hstops | ⟨rfl, hruns⟩
      · obtain ⟨rc, rfl, hended⟩ := ended_of_stops hstops
        exact .inl ⟨rc, t', hq, hended⟩
      · refine .inl ⟨.ok, t', hq,
          ⟨fun _ => .inr ⟨?_, hruns.held, hruns.state, fun _ => hruns.counts⟩⟩⟩
        simp [hstate, turns]
  case done => exact hsame (hends (hdone .done (by simp))) (work_of_state want locals hstate)
  case error => exact hsame (hends (hdone .err (by simp))) (work_of_state want locals hstate)

theorem step_of_message {t : Trace E} (hread : t.readNewTraceMessage = false) (fuel : ℕ) :
    step fuel want locals t = work want locals t := by
  have hreceive : receive fuel want t = .ok want t := by
    change (if t.readNewTraceMessage = true then receiveMessage fuel want else pure want : TraceM
      E Want) t = _
    rw [hread]
    rfl
  exact bind_ok hreceive

theorem Ended.of_goesOn {t t₁ t' : Trace E} {rc : DQErr} (h : Ended t₁ rc t')
    (hheld : Held t.sfp false t₁)
    (hturns : turns t₁.here.state < turns t.here.state) : Ended t rc t' where
  left hok := by
    rcases h.left hok with hheld' | ⟨hlater, hheld', hstate, -⟩
    · exact .inl ⟨hheld'.sfp.trans hheld.sfp, hheld'.readNew⟩
    · refine .inr ⟨hlater.trans hturns, ⟨hheld'.sfp.trans hheld.sfp, hheld'.readNew⟩, hstate,
        fun hinst => ?_⟩
      -- no instruction is run behind one that does not end the call
      rw [hinst] at hturns
      exact absurd (Nat.lt_of_lt_of_le hturns (Nat.succ_le_of_lt hlater)) (Nat.lt_irrefl _)

theorem loop_ends (want : Want) (locals : Locals) {t : Trace E}
    (hread : t.readNewTraceMessage = false) :
    ∃ rc t', (∀ fuel n, turns t.here.state ≤ n → loop fuel want locals n t = .error (.ret rc) t') ∧
      Ended t rc t' := by
  obtain ⟨k, hk⟩ : ∃ k, turns t.here.state = k := ⟨_, rfl⟩
  induction k using Nat.strong_induction_on generalizing t with
  | _ k ih =>
    have hpos : 0 < turns t.here.state := by cases t.here.state <;> simp [turns]
    have hloop (fuel n : ℕ) : loop fuel want locals (n + 1) t =
        (work want locals >>= fun _ => loop fuel want locals n) t := by
      change (step fuel want locals >>= fun _ => loop fuel want locals n) t = _
      rw [bind_run, bind_run, step_of_message hread]
    rcases work_endsOrGoesOn want locals hread with ⟨rc, t', hwork, hended⟩ | ⟨t₁, hwork,
      hheld, hturns⟩
    · refine ⟨rc, t', fun fuel n hn => ?_, hended⟩
      obtain ⟨n, rfl⟩ : ∃ m, n = m + 1 := ⟨n - 1, by omega⟩
      rw [hloop, bind_error hwork]
    · obtain ⟨rc, t', hrun, hended⟩ := ih _ (hk ▸ hturns) hheld.readNew rfl
      refine ⟨rc, t', fun fuel n hn => ?_, hended.of_goesOn hheld hturns⟩
      obtain ⟨n, rfl⟩ : ∃ m, n = m + 1 := ⟨n - 1, by omega⟩
      rw [hloop, bind_ok hwork]
      exact hrun fuel n (by omega)

end TraceM

end TraceDecoder
