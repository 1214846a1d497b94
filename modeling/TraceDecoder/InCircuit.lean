import TraceDecoder.AddressSteps

/-!
# In-circuit trace messages with and without sync

A message that is compressed against the last address and a message with sync carry one event. They
leave the same addresses, pid and process, and they make the same converter calls unless the event
is one on which the two branches of `processTraceMessage` have drifted apart.
-/

namespace TraceDecoder

open DecoderM EStateM

variable {E : Env}

def Decoder.calls (d : Decoder E) : List (ℕ × ℕ × ConverterCall) :=
  d.emitted.map fun e => (e.process, e.core, e.call)

structure View where
  pc : ADDRESS
  faddr : ADDRESS
  currentPid : BitVec 32
  currentProcessIndex : Option ℕ
  calls : List (ℕ × ℕ × ConverterCall)
  deriving DecidableEq

def Decoder.view (d : Decoder E) (c : ℕ) : View where
  pc := (d.core c).currentAddress
  faddr := (d.core c).lastFaddr
  currentPid := (d.core c).currentPid
  currentProcessIndex := (d.core c).currentProcessIndex
  calls := d.calls

def ConverterOpens (E : Env) (eventConverter : ℕ → Bool) (p : ℕ) : Prop :=
  eventConverter p = true ∨ (E.processes p).hasElfName = true ∧ E.newEventConverter p = .ok

instance (eventConverter : ℕ → Bool) (p : ℕ) : Decidable (ConverterOpens E eventConverter p) :=
  inferInstanceAs (Decidable (_ ∨ _))

/-- The events on which the two branches differ, for process `p` and address `addr`: a watchpoint
loses its id without sync, an inferable call with sync takes its own address for the destination or
does not reach the event converter, and a control event without sync does not open the converter. -/
def Drifts (E : Env) (eventConverter : ℕ → Bool) (k : CoreState) (p : ℕ) (m : ICT)
    (addr : ADDRESS) : Prop :=
  ConverterOpens E eventConverter p ∧
    match ICTReason.ofCode m.cksrc with
    | some .watchpoint => m.ckdf = 1 ∧ m.ckdata1.setWidth 32 ≠ 0#32
    | some .inferableCall =>
      m.ckdf = 0 ∧ (∃ call, callFrom E k addr = some call ∧ call.1 ≠ addr) ∨
        m.ckdf = 1 ∧ (E.processes p).hasCtf = false ∧ ∃ call, callFrom E k addr = some call
    | some .control => m.ckdf = 0 ∧ eventConverter p = false
    | _ => False

def CoreState.untimed (k : CoreState) : CoreState :=
  { k with lastTime := 0, prevMsgWasSync := false }

/-- Two decoders at work on a message of core `c` that agree but for times. -/
structure Same (c : ℕ) (conv : ℕ → Bool) (k : CoreState) (d d' : Decoder E) : Prop where
  current : d.currentCore = c ∧ d'.currentCore = c
  message : d.nm.core = c ∧ d'.nm.core = c
  core : (d.core c).untimed = k ∧ (d'.core c).untimed = k
  converters : d.eventConverter = conv ∧ d'.eventConverter = conv
  calls : d.calls = d'.calls

/-- The views are the same exactly if `P` holds. -/
def Agree (c : ℕ) (P : Prop) (d d' : Decoder E) : Prop := d.view c = d'.view c ↔ P

section
variable {c p : ℕ} {conv : ℕ → Bool} {k : CoreState} {d d' : Decoder E} {P : Prop} {pid : BitVec 32}
  {post : Decoder E → Decoder E → Prop}

theorem view_eq_iff (hcore : (d.core c).untimed = (d'.core c).untimed) :
    d.view c = d'.view c ↔ d.calls = d'.calls := by
  have hpc := congrArg CoreState.currentAddress hcore
  have hfaddr := congrArg CoreState.lastFaddr hcore
  have hpid := congrArg CoreState.currentPid hcore
  have hprocess := congrArg CoreState.currentProcessIndex hcore
  simp only [CoreState.untimed] at hpc hfaddr hpid hprocess
  simp only [Decoder.view, hpc, hfaddr, hpid, hprocess, View.mk.injEq, true_and]

namespace Same

theorem agree (h : Same c conv k d d') (hP : P) : Agree c P d d' :=
  iff_of_true ((view_eq_iff (h.core.1.trans h.core.2.symm)).mpr h.calls) hP

theorem modifyCores (h : Same c conv k d d') (u f g : CoreState → CoreState)
    (hf : ∀ k, (f k).untimed = u k.untimed) (hg : ∀ k, (g k).untimed = u k.untimed) {i j : ℕ}
    (hi : i = c) (hj : j = c) : Same c conv (u k) (d.modifyCore i f) (d'.modifyCore j g) where
  current := h.current
  message := h.message
  core := by
    subst hi hj
    rw [Decoder.core_modifyCore_self, Decoder.core_modifyCore_self, hf, hg, h.core.1, h.core.2]
    exact ⟨rfl, rfl⟩
  converters := h.converters
  calls := h.calls

theorem modifyCore (h : Same c conv k d d') (f : CoreState → CoreState)
    (hf : ∀ k, (f k).untimed = f k.untimed) {i j : ℕ} (hi : i = c) (hj : j = c) :
    Same c conv (f k) (d.modifyCore i f) (d'.modifyCore j f) := h.modifyCores f f f hf hf hi hj

theorem modifyHere (h : Same c conv k d d') (f : CoreState → CoreState)
    (hf : ∀ k, (f k).untimed = f k.untimed) :
    Same c conv (f k) (d.modifyHere f) (d'.modifyHere f) :=
  h.modifyCore f hf h.current.1 h.current.2

theorem here (h : Same c conv k d d') : d.here.untimed = k ∧ d'.here.untimed = k := by
  rw [Decoder.here, Decoder.here, h.current.1, h.current.2]
  exact h.core

theorem reads (h : Same c conv k d d') {α : Type} (g : CoreState → α)
    (hg : ∀ k, g k.untimed = g k) :
    g d.here = g k ∧ g d'.here = g k := by
  obtain ⟨hs, ht⟩ := h.here
  exact ⟨by rw [← hs, hg], by rw [← ht, hg]⟩

end Same

/-! ### Steps that the branches share -/

theorem coupled_setAddr {a b : ADDRESS} (hfaddr : k.lastFaddr ≠ 0)
    (hab : k.lastFaddr ^^^ (a <<< 1) = b <<< 1) :
    Coupled (Same (E := E) c conv k) (xorFaddr a) (setFaddr (b <<< 1))
      (fun _ _ => Same c conv { k with lastFaddr := b <<< 1 }) post := by
  intro s t hst
  obtain ⟨hs, -⟩ := hst.reads CoreState.lastFaddr fun _ => rfl
  have hrun : xorFaddr a s = .ok () (s.modifyHere ({ · with lastFaddr := b <<< 1 })) := by
    rw [xorFaddr, faddr, read_bind_run, hs, onlyIf, if_pos hfaddr, hab]
    rfl
  rw [hrun]
  exact hst.modifyHere ({ · with lastFaddr := b <<< 1 }) fun _ => rfl

theorem coupled_setPc {a : ADDRESS} :
    Coupled (Same (E := E) c conv k) (setPc a) (setPc a)
      (fun _ _ => Same c conv { k with currentAddress := a }) post :=
  Coupled.modify fun _ _ h => h.modifyHere ({ · with currentAddress := a }) fun _ => rfl

theorem coupled_setFaddr {a : ADDRESS} :
    Coupled (Same (E := E) c conv k) (setFaddr a) (setFaddr a)
      (fun _ _ => Same c conv { k with lastFaddr := a }) post :=
  Coupled.modify fun _ _ h => h.modifyHere ({ · with lastFaddr := a }) fun _ => rfl

theorem coupled_setPcToFaddr :
    Coupled (Same (E := E) c conv k) setPcToFaddr setPcToFaddr
      (fun _ _ => Same c conv { k with currentAddress := k.lastFaddr }) post :=
  Coupled.read_bind (fun _ _ h => h.reads CoreState.lastFaddr fun _ => rfl) coupled_setPc

/-- The call that is looked up from an address, if there is one. -/
theorem coupled_nextAddr {a : ADDRESS} :
    Coupled (Same (E := E) c conv k) (DecoderM.nextAddr a) (DecoderM.nextAddr a)
      (fun r r' d d' => r = r' ∧ callFrom E k a = some r ∧ Same c conv k d d')
      (fun d d' => callFrom E k a = none ∧ Same c conv k d d') := by
  refine Coupled.read_bind (fun _ _ h => h.reads (callFrom E · a) fun _ => rfl) ?_
  cases h : callFrom E k a with
  | some call => exact Coupled.pure fun _ _ hst => ⟨rfl, rfl, hst⟩
  | none =>
    refine Coupled.bind (Coupled.modify fun _ _ hst => ?_) fun _ _ => Coupled.throw
      fun _ _ hst => ⟨rfl, hst⟩
    exact ⟨hst.current, hst.message, hst.core, hst.converters, hst.calls⟩

theorem coupled_setCkdata1 {a : ADDRESS} :
    Coupled (Same (E := E) c conv k) (setCkdata1 a) (setCkdata1 a)
      (fun _ _ => Same c conv k) post :=
  Coupled.modify fun _ _ hst => ⟨hst.current, hst.message, hst.core, hst.converters, hst.calls⟩

theorem calls_emit (call : ConverterCall) (d : Decoder E) :
    (emit p call d).state.calls = d.calls ++ [(p, d.nm.core, call)] := List.map_append

theorem coupled_emit (call : ConverterCall) :
    Coupled (Same (E := E) c conv k) (emit p call) (emit p call)
      (fun _ _ => Same c conv k) post := by
  refine Coupled.modify fun s t hst => ⟨hst.current, hst.message, hst.core, hst.converters, ?_⟩
  have hs := calls_emit (p := p) call s
  have ht := calls_emit (p := p) call t
  rw [hst.message.1, hst.calls] at hs
  rw [hst.message.2] at ht
  exact hs.trans ht.symm

theorem coupled_convertCtf (crFlags : CRFlag) (source dest : ADDRESS) :
    Coupled (Same (E := E) c conv k) (convertCtf p crFlags source dest)
      (convertCtf p crFlags source dest) (fun _ _ => Same c conv k) (Same c conv k) := by
  unfold convertCtf
  split_ifs
  · exact coupled_emit _
  · exact coupled_emit _
  · exact Coupled.throw fun _ _ h => h

/-! ### Steps that may open the converter -/

/-- Opening the converter and calling it changes no core, and makes the call
if the converter opens. -/
theorem openEmit_state (call : ConverterCall) (d : Decoder E) :
    ((openEventConverter p >>= fun _ => emit p call) d).state.core = d.core ∧
      ((openEventConverter p >>= fun _ => emit p call) d).state.calls =
        d.calls ++ if ConverterOpens E d.eventConverter p then [(p, d.nm.core, call)] else [] := by
  by_cases hopen : d.eventConverter p = true
  · have hrun : openEventConverter p d = .ok () d := by
      rw [openEventConverter, read_bind_run, hopen]
      rfl
    rw [bind_ok hrun, if_pos (.inl hopen)]
    exact ⟨rfl, calls_emit call d⟩
  · have hclosed : d.eventConverter p = false := Bool.eq_false_of_not_eq_true hopen
    cases hname : (E.processes p).hasElfName with
    | false =>
      have hfails : ¬ ConverterOpens E d.eventConverter p := by
        simp [ConverterOpens, hclosed, hname]
      have hrun : openEventConverter p d = .error .err
          { d with eventConverter := Function.update d.eventConverter p false } := by
        rw [openEventConverter, read_bind_run, hclosed, onlyIf, if_pos rfl, enableEventConverter,
          hname]
        rfl
      rw [bind_error hrun, if_neg hfails, List.append_nil]
      exact ⟨rfl, rfl⟩
    | true =>
      have hopens : ConverterOpens E d.eventConverter p ↔ E.newEventConverter p = .ok := by
        simp [ConverterOpens, hclosed, hname]
      have hrun : openEventConverter p d = onlyIf (E.newEventConverter p ≠ .ok) (throw .err)
          { d with
            eventConverter := Function.update (Function.update d.eventConverter p false) p true
            status := E.newEventConverter p } := by
        rw [openEventConverter, read_bind_run, hclosed, onlyIf, if_pos rfl, enableEventConverter,
          hname]
        rfl
      by_cases hok : E.newEventConverter p = .ok
      · rw [onlyIf, if_neg (not_not.mpr hok)] at hrun
        rw [bind_ok hrun, if_pos (hopens.mpr hok)]
        exact ⟨rfl, calls_emit call _⟩
      · rw [onlyIf, if_pos hok] at hrun
        rw [bind_error hrun, if_neg (mt hopens.mp hok), List.append_nil]
        exact ⟨rfl, rfl⟩

theorem meets_openEmit {call call' : ConverterCall}
    (hP : P ↔ (ConverterOpens E conv p → call = call')) :
    Meets (Same (E := E) c conv k) (openEventConverter p >>= fun _ => emit p call)
      (openEventConverter p >>= fun _ => emit p call') (Agree c P) := by
  intro s t hst
  obtain ⟨hcore, hcalls⟩ := openEmit_state (p := p) call s
  obtain ⟨hcore', hcalls'⟩ := openEmit_state (p := p) call' t
  refine (view_eq_iff (by rw [hcore, hcore', hst.core.1, hst.core.2])).trans ?_
  rw [hP, hcalls, hcalls', hst.calls, List.append_cancel_left_eq, hst.message.1, hst.message.2,
    hst.converters.1, hst.converters.2]
  by_cases hopens : ConverterOpens E conv p
  · simp [hopens]
  · simp [hopens]

theorem meets_convertEvent (hconv : E.eventConvert = true) {call call' : ConverterCall}
    (hP : P ↔ (ConverterOpens E conv p → call = call')) :
    Meets (Same (E := E) c conv k) (convertEvent (some p) call) (convertEvent (some p) call')
      (Agree c P) := by
  simp only [convertEvent, onlyIf, hconv, if_true]
  exact meets_openEmit hP

theorem meets_convertEvent_self (hconv : E.eventConvert = true) (pIndex : Option ℕ)
    (call : ConverterCall)
    (hP : P) : Meets (Same (E := E) c conv k) (convertEvent pIndex call) (convertEvent pIndex call)
    (Agree c P) := by
  cases pIndex with
  | none => exact fun _ _ hst => hst.agree hP
  | some p => exact meets_convertEvent hconv (iff_of_true hP fun _ => rfl)

theorem meets_read_convertEvent (hconv : E.eventConvert = true) (g : CoreState → ADDRESS)
    (hg : ∀ k, g k.untimed = g k) (call : ADDRESS → ConverterCall) (pIndex : Option ℕ) (hP : P) :
    Meets (Same (E := E) c conv k)
      (EStateM.read (g ·.here) >>= fun a => convertEvent pIndex (call a))
      (EStateM.read (g ·.here) >>= fun a => convertEvent pIndex (call a)) (Agree c P) :=
  Meets.read_bind (fun _ _ h => h.reads g hg) (meets_convertEvent_self hconv _ _ hP)

theorem meets_openEmit_pure {call : ConverterCall} (hP : P ↔ ¬ ConverterOpens E conv p) :
    Meets (Same (E := E) c conv k) (openEventConverter p >>= fun _ => emit p call) (pure ())
      (Agree c P) := by
  intro s t hst
  obtain ⟨hcore, hcalls⟩ := openEmit_state (p := p) call s
  change Agree c P _ t
  refine (view_eq_iff (by rw [hcore, hst.core.1, hst.core.2])).trans ?_
  rw [hP, hcalls, ← hst.calls, hst.converters.1]
  by_cases hopens : ConverterOpens E conv p <;> simp [hopens]

end

/-! ### The branches -/

section
variable {c p : ℕ} {conv : ℕ → Bool} {k : CoreState} {pid : BitVec 32} {m : ICT} {a : ADDRESS}
  {post : Decoder E → Decoder E → Prop}

theorem meets_call {tail tail' : DecoderM E Unit} {rel : Decoder E → Decoder E → Prop}
    (hfaddr : k.lastFaddr ≠ 0) (ha : k.lastFaddr ^^^ (m.ckdata0 <<< 1) = a <<< 1)
    (htail : Meets (Same c conv { k with
        currentAddress := a <<< 1, lastFaddr := a <<< 1 ^^^ (m.ckdata1 <<< 1) }) tail tail' rel) :
    Meets (Same (E := E) c conv k) (do xorPcFaddr m.ckdata0 m.ckdata1; tail)
      (do setPc (a <<< 1); setFaddr ((← DecoderM.pc) ^^^ (m.ckdata1 <<< 1)); tail') rel := by
  have hmeets : Meets (Same (E := E) c conv k)
      (do setPc (a <<< 1); setFaddr ((← DecoderM.pc) ^^^ (m.ckdata1 <<< 1)); tail)
      (do setPc (a <<< 1); setFaddr ((← DecoderM.pc) ^^^ (m.ckdata1 <<< 1)); tail') rel :=
    Meets.bind coupled_setPc fun _ _ =>
      Meets.read_bind (fun _ _ h => h.reads CoreState.currentAddress fun _ => rfl)
        (Meets.bind coupled_setFaddr fun _ _ => htail)
  intro s t hst
  obtain ⟨hs, -⟩ := hst.reads CoreState.lastFaddr fun _ => rfl
  have hrun : xorPcFaddr m.ckdata0 m.ckdata1 s =
      (do setPc (a <<< 1); setFaddr ((← DecoderM.pc) ^^^ (m.ckdata1 <<< 1)) : DecoderM E Unit)
        s := by
    rw [xorPcFaddr, faddr, read_bind_run, hs, if_pos hfaddr, ha]
  rw [bind_run, hrun]
  exact hmeets s t hst

theorem coupled_switchContext (pIndex : Option ℕ) (tag : BitVec 8) :
    Coupled (Same (E := E) c conv k) (switchContext pIndex pid tag) (switchContext pIndex pid tag)
      (fun r r' d d' => r = r' ∧ ∃ k', Same c conv k' d d') post := by
  have hprv : Coupled (Same (E := E) c conv k) (setCurrentPrv (-1)) (setCurrentPrv (-1))
      (fun _ _ d d' => ∃ k', Same c conv k' d d') post :=
    Coupled.modify fun _ _ h => ⟨_, h.modifyCore ({ · with currentPrv := -1 }) (fun _ => rfl)
      h.message.1 h.message.2⟩
  have hpid : Coupled (Same (E := E) c conv k) (processPidPriv pid 0xf 0xf)
      (processPidPriv pid 0xf 0xf) (fun r r' d d' => r = r' ∧ ∃ k', Same c conv k' d d') post :=
    fun s t h => ⟨rfl, _, h.modifyCore ({ · with
      currentPid := pid
      currentPrv := 0xf <<< 4 ||| 0xf
      currentProcessIndex := findProcess E pid
      currentElfReader := findProcess E pid }) (fun _ => rfl) h.message.1 h.message.2⟩
  unfold switchContext
  split_ifs
  · exact hpid
  · exact (Coupled.onlyIf Iff.rfl (fun _ => hprv) fun _ _ _ h => ⟨k, h⟩).bind fun _ _ =>
      Coupled.pure fun _ _ h => ⟨rfl, h⟩

theorem meets_thenPc {tail tail' : DecoderM E Unit} {rel : Decoder E → Decoder E → Prop}
    (hfaddr : k.lastFaddr ≠ 0) (ha : k.lastFaddr ^^^ (m.ckdata0 <<< 1) = a <<< 1)
    (htail : Meets (Same c conv { k with lastFaddr := a <<< 1, currentAddress := a <<< 1 }) tail
      tail' rel) :
    Meets (Same (E := E) c conv k) (do xorFaddr m.ckdata0; setPcToFaddr; tail)
      (do setFaddr (a <<< 1); setPcToFaddr; tail') rel :=
  Meets.bind (coupled_setAddr hfaddr ha) fun _ _ => Meets.bind coupled_setPcToFaddr fun _ _ => htail

theorem meets_control (hconv : E.eventConvert = true) (call : ConverterCall) :
    Meets (Same (E := E) c conv k) (do let isOpen ← EStateM.read (·.eventConverter p); onlyIf isOpen (emit p call))
      (convertEvent (some p) call) (Agree c (¬ (ConverterOpens E conv p ∧ conv p = false))) := by
  intro s t hst
  obtain ⟨hcore, hcalls⟩ := openEmit_state (p := p) call t
  simp only [convertEvent, onlyIf, hconv, if_true, read_bind_run, hst.converters.1]
  cases hopen : conv p with
  | true =>
    have hopens : ConverterOpens E t.eventConverter p := .inl (by rw [hst.converters.2, hopen])
    rw [if_pos hopens] at hcalls
    refine (view_eq_iff ?_).trans (iff_of_true ?_ (by simp))
    · rw [hcore, hst.core.2]
      exact hst.core.1
    · rw [hcalls, ← hst.calls, hst.message.2, ← hst.message.1]
      exact calls_emit call s
  | false =>
    refine (view_eq_iff ?_).trans ?_
    · rw [hcore, hst.core.2]
      exact hst.core.1
    · rw [hcalls, ← hst.calls, hst.converters.2]
      change s.calls = _ ↔ _
      by_cases hopens : ConverterOpens E conv p <;> simp [hopens]

theorem meets_inferableCall (hconv : E.eventConvert = true) (hfaddr : k.lastFaddr ≠ 0)
    (hsrc : ICTReason.ofCode m.cksrc = some .inferableCall)
    (ha : k.lastFaddr ^^^ (m.ckdata0 <<< 1) = a <<< 1) :
    Meets (Same (E := E) c conv k) (processICT (some p) pid m)
      (processICTWS (some p) pid { m with ckdata0 := a })
      (Agree c (¬ Drifts E conv k p m (a <<< 1))) := by
  have hread : ∀ k₁ s t, Same (E := E) c conv k₁ s t →
      s.here.currentAddress = k₁.currentAddress ∧ t.here.currentAddress = k₁.currentAddress :=
    fun _ _ _ h => h.reads CoreState.currentAddress fun _ => rfl
  have hread' : ∀ k₁ s t, Same (E := E) c conv k₁ s t →
      s.here.lastFaddr = k₁.lastFaddr ∧ t.here.lastFaddr = k₁.lastFaddr :=
    fun _ _ _ h => h.reads CoreState.lastFaddr fun _ => rfl
  unfold processICT processICTWS Drifts
  simp only [hsrc]
  split_ifs with h₀ h₁
  · refine meets_thenPc hfaddr ha (Meets.onlyIf (Or.inl hconv) (Meets.read_bind (hread _) ?_))
    refine Meets.bind (coupled_nextAddr.weaken (fun _ _ h => h) (fun _ _ _ _ h => h) ?_) ?_
    · rintro s t ⟨hcall, hst⟩
      have hnone : callFrom E k (a <<< 1) = none := hcall
      exact hst.agree (by simp [hnone])
    · rintro ⟨nextPC, crFlag⟩ _ s t ⟨rfl, hcall, hst⟩
      refine Meets.bind coupled_setCkdata1 (fun _ _ => Meets.bind
        (Coupled.onlyIf Iff.rfl (fun _ => coupled_emit _) fun _ _ _ h => h) fun _ _ =>
          Meets.onlyIf hconv (Meets.read_right (fun _ _ h => (hread' _ _ _ h).2)
            (meets_openEmit ?_))) s t hst
      have hsome : callFrom E k (a <<< 1) = some (nextPC, crFlag) := hcall
      simp [hsome, h₀]
  · refine meets_call hfaddr ha (Meets.onlyIf (Or.inl hconv)
      (Meets.read_bind (hread _) (Meets.read_bind (hread' _) ?_)))
    refine Meets.bind (coupled_nextAddr.weaken (fun _ _ h => h) (fun _ _ _ _ h => h) ?_) ?_
    · rintro s t ⟨hcall, hst⟩
      have hnone : callFrom E k (a <<< 1) = none := hcall
      exact hst.agree (by simp [hnone])
    · rintro ⟨nextPC, crFlag⟩ _ s t ⟨rfl, hcall, hst⟩
      have hsome : callFrom E k (a <<< 1) = some (nextPC, crFlag) := hcall
      refine (?_ : Meets (Same c conv _) _ _ _) s t hst
      cases hctf : (E.processes p).hasCtf with
      | true =>
        simp only [onlyIf, hconv, if_true]
        exact Meets.bind ((coupled_convertCtf _ _ _).weaken (fun _ _ h => h) (fun _ _ _ _ h => h)
          fun _ _ h => h.agree (by simp [h₁])) fun _ _ => meets_openEmit (by simp [h₁])
      | false =>
        simp only [onlyIf, Bool.false_eq_true, if_false, pure_bind]
        exact meets_openEmit_pure (by simp [h₁, hsome])
  · exact fun _ _ hst => hst.agree fun h => h.2.elim (fun h => h₀ h.1) fun h => h₁ h.1

/-- The branches differ as `Drifts` says. -/
theorem meets_processICT (hconv : E.eventConvert = true) (hfaddr : k.lastFaddr ≠ 0)
    (hdata : m.address = some .none → m.ckdata0 = a)
    (haddr : m.address ≠ some .none → k.lastFaddr ^^^ (m.ckdata0 <<< 1) = a <<< 1) :
    Meets (Same (E := E) c conv k) (processICT (some p) pid m)
      (processICTWS (some p) pid { m with ckdata0 := a })
      (Agree c (¬ Drifts E conv k p m (a <<< 1))) := by
  have hthrow : ∀ P : Prop, P → Meets (Same (E := E) c conv k) (throw DQErr.err : DecoderM E Unit)
      (throw DQErr.err : DecoderM E Unit) (Agree c P) := fun _ hP _ _ hst => hst.agree hP
  have hle : m.ckdf ≠ 0 → (m.ckdf ≤ 1 ↔ m.ckdf = 1) := fun h => by bv_omega
  by_cases hcall : ICTReason.ofCode m.cksrc = some .inferableCall
  · refine meets_inferableCall hconv hfaddr hcall (haddr ?_)
    simp only [ICT.address, hcall]
    split_ifs <;> exact fun h => nomatch h
  unfold ICT.address at haddr hdata
  unfold processICT processICTWS Drifts
  cases hsrc : ICTReason.ofCode m.cksrc with
  | none => exact hthrow _ (by simp)
  | some src =>
    cases src <;> simp only [hsrc] at haddr hdata ⊢
    case extTrig =>
      split_ifs with h₀ h₁
      · have ha := haddr (by simp [h₀])
        exact Meets.bind (coupled_setAddr hfaddr ha) fun _ _ =>
          meets_read_convertEvent hconv CoreState.lastFaddr (fun _ => rfl) _ _ (by simp)
      · have ha := haddr (by simp [h₁])
        exact meets_thenPc hfaddr ha (meets_read_convertEvent hconv CoreState.lastFaddr
          (fun _ => rfl) _ _ (by simp))
      · exact hthrow _ (by simp)
    case watchpoint =>
      by_cases h₀ : m.ckdf = 0
      · have ha := haddr (by simp [h₀])
        simp only [h₀, if_true]
        exact Meets.bind (coupled_setAddr hfaddr ha) fun _ _ =>
          meets_read_convertEvent hconv CoreState.lastFaddr (fun _ => rfl) _ _ (by simp)
      · simp only [h₀, hle h₀, if_false]
        split_ifs with h₁
        · have ha := haddr (by simp [h₁])
          exact meets_thenPc hfaddr ha (Meets.read_bind (fun _ _ h => h.reads CoreState.lastFaddr
            fun _ => rfl) (meets_convertEvent hconv (by simp [h₁, eq_comm])))
        · exact hthrow _ fun h => h₁ h.2.1
    case inferableCall => exact absurd hsrc hcall
    case exception | interrupt =>
      split_ifs with h₁
      · have ha := haddr (by simp [h₁])
        exact meets_thenPc hfaddr ha
          (meets_read_convertEvent hconv CoreState.currentAddress (fun _ => rfl) _ _ (by simp))
      · exact hthrow _ (by simp)
    case pcSample =>
      split_ifs with h₀
      · have ha := haddr (by simp [h₀])
        exact meets_thenPc hfaddr ha
          (meets_read_convertEvent hconv CoreState.currentAddress (fun _ => rfl) _ _ (by simp))
      · exact hthrow _ (by simp)
    case context =>
      split_ifs with h₁
      · have ha := haddr (by simp [h₁])
        refine meets_thenPc hfaddr ha (Meets.bind (coupled_switchContext _ _) fun pIndex pIndex' => ?_)
        rintro s t ⟨rfl, k', hst⟩
        exact meets_read_convertEvent hconv CoreState.currentAddress (fun _ => rfl)
          (fun pc => .emitContext pid m.ckdf pc _ _) pIndex (by simp) s t hst
      · exact hthrow _ (by simp)
    case control =>
      split_ifs with h₀ h₁
      · rw [← hdata (by simp [h₀])]
        simp only [h₀, true_and]
        exact meets_control hconv _
      · have ha := haddr (by simp [h₁])
        exact meets_thenPc hfaddr ha
          (meets_read_convertEvent hconv CoreState.currentAddress (fun _ => rfl) _ _ fun h =>
            h₀ h.2.1)
      · exact hthrow _ fun h => h₀ h.2.1

end

/-! ### Messages -/

def Decoder.receive (d : Decoder E) (nm : NexusMessage) : Decoder E := { d with nm := nm }

theorem updateTime_run (tstype : TsType) (d : Decoder E) :
    ∃ ts, updateTime tstype d = .ok () (d.modifyHere ({ · with lastTime := ts })) := by
  rw [updateTime, read_bind_run, read_bind_run, onlyIf]
  split_ifs
  · exact ⟨_, rfl⟩
  · refine ⟨d.here.lastTime, ?_⟩
    have hself : d.modifyHere ({ · with lastTime := d.here.lastTime }) = d := by
      rw [Decoder.modifyHere, Decoder.modifyCore]
      exact congrArg (fun core => { d with core := core }) (Function.update_eq_self d.currentCore
        d.core)
    rw [hself]
    rfl

/-- What goes before the branches changes what is not compared. -/
theorem coupled_updateTime {c : ℕ} {conv : ℕ → Bool} {k : CoreState}
    {post : Decoder E → Decoder E → Prop}
    (tstype tstype' : TsType) : Coupled (Same (E := E) c conv k) (updateTime tstype)
    (updateTime tstype')
      (fun _ _ => Same c conv k) post := by
  intro s t hst
  obtain ⟨ts, hs⟩ := updateTime_run tstype s
  obtain ⟨ts', ht⟩ := updateTime_run tstype' t
  rw [hs, ht]
  exact hst.modifyCores id ({ · with lastTime := ts }) ({ · with lastTime := ts' }) (fun _ => rfl)
    (fun _ => rfl) hst.current.1 hst.current.2

theorem coupled_setPrevMsgWasSync {c : ℕ} {conv : ℕ → Bool} {k : CoreState}
    {post : Decoder E → Decoder E → Prop} (b b' : Bool) :
    Coupled (Same (E := E) c conv k) (setPrevMsgWasSync b) (setPrevMsgWasSync b')
      (fun _ _ => Same c conv k) post :=
  Coupled.modify fun _ _ h => h.modifyCores id ({ · with prevMsgWasSync := b })
    ({ · with prevMsgWasSync := b' }) (fun _ => rfl) (fun _ => rfl) h.message.1 h.message.2

/-- **In-circuit trace.** A message compressed against the last address and the
message with sync for the same event agree exactly if the event is not one on which
the branches have drifted apart. -/
theorem processTraceMessage_agree (hconv : E.eventConvert = true) {d : Decoder E} {p : ℕ}
    (hprocess : d.here.currentProcessIndex = some p) (hfaddr : d.here.lastFaddr ≠ 0)
    {nm nm' : NexusMessage}
    (hcore : nm.core = d.currentCore) (hcore' : nm'.core = d.currentCore) {m : ICT} {a : ADDRESS}
    (hbody : nm.body = .ict m) (hbody' : nm'.body = .ictWS { m with ckdata0 := a })
    (hdata : m.address = some .none → m.ckdata0 = a)
    (haddr : m.address ≠ some .none → d.here.lastFaddr ^^^ (m.ckdata0 <<< 1) = a <<< 1) :
    (processTraceMessage (d.receive nm)).state.view d.currentCore =
        (processTraceMessage (d.receive nm')).state.view d.currentCore ↔
      ¬ Drifts E d.eventConverter d.here p m (a <<< 1) := by
  have hsame : Same (E := E) d.currentCore d.eventConverter d.here.untimed
      { d.receive nm with consumed := false } { d.receive nm' with consumed := false } :=
    ⟨⟨rfl, rfl⟩, ⟨hcore, hcore'⟩, ⟨rfl, rfl⟩, ⟨rfl, rfl⟩, rfl⟩
  have hp : (d.receive nm).pIndex = some p := by rw [← hprocess, Decoder.here, ← hcore]; rfl
  have hp' : (d.receive nm').pIndex = some p := by rw [← hprocess, Decoder.here, ← hcore']; rfl
  rw [processTraceMessage_eq, processTraceMessage_eq, hp, hp', show (d.receive nm).nm.body =
    _ from hbody, show (d.receive nm').nm.body = _ from hbody']
  refine (?_ : Meets (Same d.currentCore d.eventConverter d.here.untimed) _ _
    (Agree d.currentCore (¬ Drifts E d.eventConverter d.here.untimed p m (a <<< 1)))) _ _ hsame
  exact Meets.bind (coupled_updateTime _ _) fun _ _ => Meets.bind (coupled_setPrevMsgWasSync _ _)
      fun _ _ =>
    meets_processICT hconv hfaddr hdata haddr

def convertingEnv : Env :=
  { Env.bareMetal false Program.empty with eventConvert := true }

def seenDecoder : Decoder convertingEnv :=
  (Trace.init convertingEnv .htm (SliceFileParser.init 2 []) none).toDecoder.modifyHere
    ({ · with lastFaddr := 0x100 })

def watchpointMessage : NexusMessage := { NexusMessage.init with body := .ict ⟨14, 1, 0x82, 7⟩ }

def watchpointMessageWS : NexusMessage := { NexusMessage.init with body := .ictWS ⟨14, 1, 0x2, 7⟩ }

theorem processTraceMessage_agree_watchpoint :
    (processTraceMessage (seenDecoder.receive watchpointMessage)).state.view 0 =
        (processTraceMessage (seenDecoder.receive watchpointMessageWS)).state.view 0 ↔
      ¬ Drifts convertingEnv (fun _ => false) seenDecoder.here 0 ⟨14, 1, 0x82, 7⟩ 0x4 := by
  have hfaddr : seenDecoder.here.lastFaddr ≠ 0 := by decide
  have hdata : ICT.address ⟨14, 1, 0x82, 7⟩ = some .none → (0x82 : ADDRESS) = 0x2 := by decide
  have haddr : seenDecoder.here.lastFaddr ^^^ ((0x82 : ADDRESS) <<< 1) = 0x2 <<< 1 := by decide
  exact processTraceMessage_agree rfl rfl hfaddr rfl rfl rfl rfl hdata fun _ => haddr

/-- The watchpoint with id 7 is converted with id 0 without sync. -/
theorem processTraceMessage_drift_watchpoint :
    ¬ ∀ (E : Env) (_ : E.eventConvert = true) (d : Decoder E) (p : ℕ)
        (_ : d.here.currentProcessIndex = some p) (_ : d.here.lastFaddr ≠ 0) (nm nm' : NexusMessage)
        (_ : nm.core = d.currentCore) (_ : nm'.core = d.currentCore) (m : ICT) (a : ADDRESS)
        (_ : nm.body = .ict m) (_ : nm'.body = .ictWS { m with ckdata0 := a })
        (_ : m.address = some .none → m.ckdata0 = a)
        (_ : m.address ≠ some .none → d.here.lastFaddr ^^^ (m.ckdata0 <<< 1) = a <<< 1),
      (processTraceMessage (d.receive nm)).state.view d.currentCore =
        (processTraceMessage (d.receive nm')).state.view d.currentCore := by
  intro hall
  have hview := hall convertingEnv rfl seenDecoder 0 rfl (by decide) watchpointMessage
    watchpointMessageWS rfl rfl ⟨14, 1, 0x82, 7⟩ 0x2 rfl rfl (by decide) fun _ => by decide
  exact absurd (congrArg View.calls hview) (by decide)

end TraceDecoder
