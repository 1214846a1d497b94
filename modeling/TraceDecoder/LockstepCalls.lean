import TraceDecoder.LockstepStates

/-!
# Calls in lockstep

What is reported by a call whose message has been read, in the form in which two callers are
compared, and calls whose pointers are put aside for a control event.
-/

namespace TraceDecoder

open EStateM TraceM

variable {E : Env}

/-! ### A call that has its message -/

section
variable {R : Trace E → Trace E → Prop} {want want' : Want} {locals locals' : Locals}
    (h : Lockstep want want' locals locals' R)
include h

/-- With `k` turns both calls end with one return code. -/
def EndAlike (want want' : Want) (locals locals' : Locals) (R : Trace E → Trace E → Prop) (k : ℕ)
    (t t' : Trace E) : Prop :=
  ∃ rc t₁ t₁', R t₁ t₁' ∧ ∀ fuel n, k ≤ n →
    loop fuel want locals n t = .error (.ret rc) t₁ ∧ loop fuel want' locals' n t' =
      .error (.ret rc) t₁'

omit h in
/-- The state is worked off, and the call ends or goes on. -/
theorem endAlike_of_work {p q : TraceM E Unit} {pre post : Trace E → Trace E → Prop}
    {t t' : Trace E} {goesOn : Unit → Trace E → Prop} {k : ℕ}
    (hread : t.readNewTraceMessage = false) (hread' : t'.readNewTraceMessage = false)
    (hp : work want locals t = p t)
    (hq : work want' locals' t' = q t') (hrun : Coupled pre p q (fun _ _ => post) R)
    (hpre : pre t t') {err : Exit → Trace E → Prop}
    (herr : ∀ e t, err e t → ∃ rc, e = .ret rc) (hexits : Leaves (fun s => s = t) p goesOn err)
    (hgoesOn : ∀ t₁ t₁', post t₁ t₁' → goesOn () t₁ → EndAlike want want' locals locals'
      R k t₁ t₁') :
    EndAlike want want' locals locals' R (k + 1) t t' := by
  have hloop (want : Want) (locals : Locals) {t : Trace E} (hread : t.readNewTraceMessage = false)
      (fuel n : ℕ) : loop fuel want locals (n + 1) t = (work want locals >>= fun _ => loop fuel want
        locals n) t := by
    change (step fuel want locals >>= fun _ => loop fuel want locals n) t = _
    rw [bind_run, bind_run, step_of_message hread]
  have hboth := hrun t t' hpre
  have hleaves := hexits t rfl
  cases hpt : p t with
  | ok u t₁ =>
    cases hqt : q t' with
    | ok u' t₁' =>
      rw [hpt, hqt] at hboth
      rw [hpt] at hleaves
      obtain ⟨rc, t₂, t₂', hrel, hends⟩ := hgoesOn t₁ t₁' hboth hleaves
      refine ⟨rc, t₂, t₂', hrel, fun fuel n hn => ?_⟩
      obtain ⟨n, rfl⟩ : ∃ m, n = m + 1 := ⟨n - 1, by omega⟩
      rw [hloop _ _ hread, hloop _ _ hread', bind_ok (hp.trans hpt), bind_ok (hq.trans hqt)]
      exact hends fuel n (by omega)
    | error e t₁' =>
      rw [hpt, hqt] at hboth
      exact hboth.elim
  | error e t₁ =>
    cases hqt : q t' with
    | ok u' t₁' =>
      rw [hpt, hqt] at hboth
      exact hboth.elim
    | error e' t₁' =>
      rw [hpt, hqt] at hboth
      rw [hpt] at hleaves
      obtain ⟨rc, rfl⟩ := herr e t₁ hleaves
      refine ⟨rc, t₁, t₁', hboth.2, fun fuel n hn => ?_⟩
      obtain ⟨n, rfl⟩ : ∃ m, n = m + 1 := ⟨n - 1, by omega⟩
      rw [hloop _ _ hread, hloop _ _ hread', bind_error (hp.trans hpt), bind_error (hq.trans hqt),
        ← hboth.1]
      exact ⟨rfl, rfl⟩

omit h in
theorem EndAlike.mono {k n : ℕ} {t t' : Trace E} (h : EndAlike want want' locals locals' R k t t')
    (hk : k ≤ n) :
    EndAlike want want' locals locals' R n t t' := by
  obtain ⟨rc, t₁, t₁', hrel, hends⟩ := h
  exact ⟨rc, t₁, t₁', hrel, fun fuel m hm => hends fuel m (hk.trans hm)⟩

/-- **A call** that has its message ends like the call beside it. -/
theorem Lockstep.endAlike {t t' : Trace E} (hst : Fresh R t t')
    (hread : t.readNewTraceMessage = false) :
    EndAlike want want' locals locals' R 4 t t' := by
  have hstate {t t' : Trace E} (hst : R t t') {s : State} (hs : t.here.state = s) :
      t'.here.state = s :=
    ((h.similar hst).same (·.state) fun _ => rfl).symm.trans hs
  have hheld {t : Trace E} (hread : t.readNewTraceMessage = false) : ∀ s, s = t →
      Held t.sfp false s := by
    rintro s rfl
    exact ⟨rfl, hread⟩
  have hstops {p : SliceFileParser} : ∀ e (t : Trace E), Stops p e t → ∃ rc, e = .ret rc :=
    fun e t h => ⟨h.choose, h.choose_spec.1⟩
  have hrel {p q : TraceM E Unit} (hpq : Matches R R p q) : Coupled R p q (fun _ _ => R) R :=
    Coupled.weaken hpq (fun _ _ hst => hst) (fun _ _ _ _ hst => hst.2) fun _ _ hst => hst
  -- the last states first
  have hdone {t t' : Trace E} (hst : R t t') (hread : t.readNewTraceMessage = false) {s : State}
      {rc : DQErr} (hs : t.here.state = s) (hp : work want locals t =
        (do setStatus rc; ret rc : TraceM E Unit) t)
      (hq : work want' locals' t' = (do setStatus rc; ret rc : TraceM E Unit) t') :
        EndAlike want want' locals locals' R 1 t t' := by
    have hends : Leaves (fun s => s = t) (do setStatus (E := E) rc; ret rc) (fun _ _ => False)
        fun e _ => ∃ rc, e = .ret rc :=
      leaves_anywhere.bind fun _ => Leaves.throw fun _ _ => ⟨rc, rfl⟩
    exact endAlike_of_work hread ((h.readNew hst).symm.trans hread) hp hq
      (hrel ((h.setStatus rc).bind fun _ => matches_ret)) hst (fun _ _ he => he) hends
        fun _ _ _ hfalse => hfalse.elim
  have hretire {t t' : Trace E} (hst : R t t') (hread : t.readNewTraceMessage = false)
      (hs : t.here.state = .retireMessage) : EndAlike want want' locals locals' R 1 t t' := by
    have hends : Leaves (Held t.sfp false) (TraceM.retireMessage want) (fun _ (_ : Trace E) =>
      False) (Stops t.sfp) := stops_retireMessage
    exact endAlike_of_work hread ((h.readNew hst).symm.trans hread) (work_of_state want locals hs)
      (work_of_state want' locals' (hstate hst hs)) (hrel h.retireMessage) hst hstops
        (hends.weaken (hheld hread) (fun _ _ he => he) fun _ _ he => he) fun _ _ _ hfalse =>
        hfalse.elim
  have hinst {t t' : Trace E} (hst : R t t') (hread : t.readNewTraceMessage = false)
      (hs : t.here.state = .getNextInstruction) : EndAlike want want' locals locals' R 2 t t' := by
    refine endAlike_of_work hread ((h.readNew hst).symm.trans hread) (work_of_state want locals hs)
      (work_of_state want' locals' (hstate hst hs)) (hrel h.getNextInstruction) hst
          (fun e t he => ?_) (leaves_getNextInstruction want locals hread hs)
          fun t₁ t₁' hst₁ hgoes =>
        hretire hst₁ hgoes.1.readNew hgoes.2
    rcases he with he | ⟨rfl, -⟩
    · exact hstops e t he
    · exact ⟨_, rfl⟩
  have hsync {t t' : Trace E} (hst : Fresh R t t') (hread : t.readNewTraceMessage = false)
      (hs : t.here.state = .getFirstSyncMsg) : EndAlike want want' locals locals' R 1 t t' := by
    have hends : Leaves (Held t.sfp false) (TraceM.getFirstSyncMsg want) (fun _ (_ : Trace E) =>
      False) (Stops t.sfp) := stops_getFirstSyncMsg
    exact endAlike_of_work hread ((h.readNew hst.rel).symm.trans hread)
      (work_of_state want locals hs) (work_of_state want' locals' (hstate hst.rel hs))
        h.getFirstSyncMsg hst hstops (hends.weaken (hheld hread) (fun _ _ he => he) fun _ _ he =>
        he) fun _ _ _ hfalse => hfalse.elim
  cases hs : t.here.state
  case syncCATE =>
    have hcate : Coupled (Fresh R) (TraceM.syncCATE want) (TraceM.syncCATE want')
        (fun _ _ => Fresh R) R :=
      Coupled.weaken h.toSpeaks.fresh.syncCATE (fun _ _ hst => hst) (fun _ _ _ _ hst => hst.2)
        fun _ _ hst => hst.rel
    exact (endAlike_of_work hread ((h.readNew hst.rel).symm.trans hread)
      (work_of_state want locals hs) (work_of_state want' locals' (hstate hst.rel hs)) hcate hst
          hstops (leaves_syncCATE.weaken (hheld hread) (fun _ _ he => he) fun _ _ he => he)
          fun t₁ t₁' hst₁ hgoes =>
        hsync hst₁ hgoes.1.readNew hgoes.2).mono (by omega)
  case getFirstSyncMsg => exact (hsync hst hread hs).mono (by omega)
  case retireMessage => exact (hretire hst.rel hread hs).mono (by omega)
  case getNextMsg =>
    exact (endAlike_of_work hread ((h.readNew hst.rel).symm.trans hread)
      (work_of_state want locals hs) (work_of_state want' locals' (hstate hst.rel hs))
        (hrel h.getNextMsg) hst.rel hstops (leaves_getNextMsg.weaken (hheld hread)
        (fun _ _ he => he) fun _ _ he => he)
      fun t₁ t₁' hst₁ hgoes => hinst hst₁ hgoes.1.readNew hgoes.2).mono (by omega)
  case getNextInstruction => exact (hinst hst.rel hread hs).mono (by omega)
  case done =>
    exact (hdone hst.rel hread hs (work_of_state want locals hs) (work_of_state want' locals'
      (hstate hst.rel hs))).mono (by omega)
  case error =>
    exact (hdone hst.rel hread hs (work_of_state want locals hs) (work_of_state want' locals'
      (hstate hst.rel hs))).mono (by omega)

end

/-! ### Reports -/

def hasSource (t : Trace E) : Bool :=
  t.here.currentProcessIndex.isSome && disassembles t.here.currentAddress t

theorem reportSourceHere_eq (t : Trace E) :
    reportSourceHere t = if hasSource t then reportSource (disassemble t.here.currentAddress t)
      else t := rfl

theorem reportEvent_eq (want : Want) (cksrc : Option ICTReason) (t : Trace E) :
    reportEvent want cksrc t = if (want.inst || want.src) && hasSource t then
      (if want.src then reportSource else id)
      ((if want.inst then reportEventInstruction cksrc else id)
      (disassemble t.here.currentAddress t))
    else t := by
  unfold reportEvent hasSource
  simp only [Bool.and_assoc]
  cases want.inst <;> cases want.src <;> rfl

theorem onlyIf_run {b : Bool} {u : Trace E → Trace E} (t : Trace E) :
    (onlyIf b (modify u) : TraceM E Unit) t = .ok () (if b then u t else t) := by
  cases b <;> rfl

theorem reportSourceOnce_run (want : Want) (t : Trace E) :
    reportSourceOnce want t = .ok () (if want.src && !t.srcSet then reportSourceHere t else t) := by
  unfold reportSourceOnce
  rw [onlyIf_run]
  cases want.src <;> cases t.srcSet <;> simp

/-- The address that is reported with an event, and the trace behind it. -/
theorem eventAddress_run (want : Want) (locals : Locals) (body : MessageBody) (t : Trace E) :
    eventAddress want locals body t =
      if body.getCKSRC = some .control ∧ body.getCKDF = 0 then .ok t.here.currentAddress t
      else if (body.getCKSRC = some .extTrig ∨ body.getCKSRC = some .watchpoint) ∧ body.getCKDF = 0
        then .ok t.here.lastFaddr t
      else .ok (if want.inst || want.src then t.here.currentAddress else locals.addr)
        (reportEvent want body.getCKSRC t) := by
  unfold eventAddress
  split_ifs with hcontrol htrig hwant hwant' hwant'
  · rfl
  · rfl
  · rfl
  · simp_all
  · simp_all
  · have hnone : reportEvent want body.getCKSRC t = t := by
      rw [reportEvent_eq]
      simp_all
    rw [hnone]
    rfl

@[simp] theorem disassemble_reports (a : ADDRESS) (t : Trace E) :
    (disassemble a t).instSet = t.instSet ∧ (disassemble a t).srcSet = t.srcSet ∧
    (disassemble a t).msgSet = t.msgSet ∧
      (disassemble a t).messageInfo = t.messageInfo := by
  unfold disassemble
  split <;> exact ⟨rfl, rfl, rfl, rfl⟩

/-- A caller who wants nothing, or whose pointers are put aside for a control event. -/
def Want.silent : Want := ⟨false, false, false⟩

section
variable {R : Trace E → Trace E → Prop} {locals locals' : Locals}

/-- Where nothing is reported, states are left alike that are updated alike. -/
theorem Shares.silent (h : Shares R) (hreset : (∀ {t t'}, R t t' → t.nm.body.tcode ≠ .error) ∨
      ∀ {t t'}, R t t' → R (t.on Decoder.resetTraceAll) (t'.on Decoder.resetTraceAll))
    (hshows : ∀ {t t'} a, disassembles a t → R t t' → R (disassemble a t) (disassemble a t')) :
    Lockstep .silent .silent locals locals' R where
  toShares := h
  resetsAll := hreset
  message _ t t' hst := ⟨rfl, hst⟩
  sourceHere t t' hst := hst.rel
  sourceOnce t t' hst := ⟨rfl, hst⟩
  event reason t t' hst := by
    have hnone (t : Trace E) : reportEvent .silent (some reason) t = t := by
      rw [reportEvent_eq]
      rfl
    refine ⟨rfl, ?_⟩
    rw [hnone, hnone]
    exact hst
  ict body _ t t' hst := by
    have hnone (t : Trace E) : reportEvent .silent body.getCKSRC t = t := by
      rw [reportEvent_eq]
      rfl
    unfold reportICT
    rw [bind_run, bind_run, eventAddress_run, eventAddress_run, hnone, hnone]
    by_cases hcontrol : body.getCKSRC = some .control ∧ body.getCKDF = 0
    · rw [if_pos hcontrol, if_pos hcontrol]
      exact ⟨rfl, hst⟩
    · rw [if_neg hcontrol, if_neg hcontrol]
      by_cases htrig : (body.getCKSRC = some .extTrig ∨ body.getCKSRC = some .watchpoint) ∧
        body.getCKDF = 0
      · rw [if_pos htrig, if_pos htrig]
        exact ⟨rfl, hst⟩
      · rw [if_neg htrig, if_neg htrig]
        exact ⟨rfl, hst⟩
  shows := hshows
  step s ca t t' hst := hst.rel

end

def PutAside (want want' wanted wanted' : Want) : Prop :=
  wanted = want ∧ wanted' = want' ∨ wanted = .silent ∧ wanted' = .silent

section
variable {R : Trace E → Trace E → Prop} {want want' : Want} {locals locals' : Locals}
    (h : Lockstep want want' locals locals' R)
include h

theorem Lockstep.silent : Lockstep .silent .silent locals locals' (Fresh R) := by
  refine h.toShares.fresh.silent h.toSpeaks.fresh.resetsAll fun a ha hst =>
    ⟨h.shows a ha hst.rel, ?_, ?_⟩
  · exact (disassemble_reports a _).1.trans hst.left
  · exact (disassemble_reports a _).1.trans hst.right

/-- The work of a state for callers whose pointers may have been put aside, and
then the rest of the call. -/
theorem Lockstep.afterPrepare {wanted wanted' : Want} {t t' t₁ t₁' : Trace E}
    (haside : PutAside want want' wanted wanted') (hst : Fresh R t t')
    (hread : t.readNewTraceMessage = false) {fuel n : ℕ} (hn : 4 ≤ n) {e e' : Exit}
    (hrun : (TraceM.work wanted locals >>= fun _ => loop fuel want locals n) t = .error e t₁)
    (hrun' : (TraceM.work wanted' locals' >>= fun _ => loop fuel want' locals' n) t' =
      .error e' t₁') : e = e' ∧ R t₁ t₁' := by
  have hcall {t t' : Trace E} (hst : Fresh R t t') (hread : t.readNewTraceMessage = false) {n : ℕ}
      (hn : 4 ≤ n) (hrun : loop fuel want locals n t = .error e t₁) (hrun' : loop fuel want' locals'
        n t' = .error e' t₁') : e = e' ∧ R t₁ t₁' := by
    obtain ⟨rc, t₂, t₂', hrel, hends⟩ := h.endAlike hst hread
    obtain ⟨hend, hend'⟩ := hends fuel n hn
    rw [hend] at hrun
    rw [hend'] at hrun'
    cases hrun
    cases hrun'
    exact ⟨rfl, hrel⟩
  rcases haside with ⟨rfl, rfl⟩ | ⟨rfl, rfl⟩
  · have hloop {want : Want} {locals : Locals} {t : Trace E} (hread : t.readNewTraceMessage =
        false) : loop fuel want locals (n + 1) t = (TraceM.work want locals >>= fun _ => loop fuel
          want locals n) t := by
      rw [bind_run, ← step_of_message hread fuel]
      rfl
    have hread' : t'.readNewTraceMessage = false := (h.readNew hst.rel).symm.trans hread
    exact hcall hst hread (n := n + 1) (by omega) ((hloop hread).trans hrun)
      ((hloop hread').trans hrun')
  · rcases h.silent.worksOff.fails ⟨hst, hst.left, hst.right⟩ hrun hrun' with ⟨rfl, hrel⟩ | ⟨u, -,
      t₂, t₂', hgoes, -, hrel, hrest, hrest'⟩
    · exact ⟨rfl, hrel.rel⟩
    · have hread₂ : t₂.readNewTraceMessage = false := by
        rcases work_endsOrGoesOn .silent locals hread with ⟨rc, t₃, hends, -⟩ | ⟨t₃, hgoes', hheld,
          -⟩
        · rw [hends] at hgoes
          cases hgoes
        · rw [hgoes] at hgoes'
          cases hgoes'
          exact hheld.readNew
      exact hcall hrel hread₂ hn hrest hrest'

theorem Lockstep.loopAlike {t t' t₁ t₁' : Trace E} (hst : Fresh R t t')
    (hread : t.readNewTraceMessage = false) {fuel n : ℕ} (hn : 4 ≤ n)
    {e e' : Exit} (hrun : loop fuel want locals (n + 1) t = .error e t₁)
    (hrun' : loop fuel want' locals' (n + 1) t' = .error e' t₁') :
    e = e' ∧ R t₁ t₁' := by
  have hloop {want : Want} {locals : Locals} {t : Trace E} (hread : t.readNewTraceMessage = false) :
      (TraceM.work want locals >>= fun _ => loop fuel want locals n) t = loop fuel want locals
        (n + 1) t := by
    rw [bind_run, ← step_of_message hread fuel]
    rfl
  have hread' : t'.readNewTraceMessage = false := (h.readNew hst.rel).symm.trans hread
  exact h.afterPrepare (.inl ⟨rfl, rfl⟩) hst hread hn ((hloop hread).trans hrun)
    ((hloop hread').trans hrun')

end

end TraceDecoder
