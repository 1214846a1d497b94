import TraceDecoder.CoreFiles

/-!
# Multi-core isolation

The messages of several cores stand in one file in any order. What is reported of one core is what
is reported of it when its messages are the only ones in the file.
-/

namespace TraceDecoder

open EStateM TraceM

variable {E : Env} {c : ℕ} {want : Want} {locals : Locals}

section
variable {srcbits : ℕ} {msgs : List (List Byte)} {t t₁ s s₁ : Trace E}

/-! ### One call -/

/-- What is seen of a call but for the place of the message in its file and what
other cores have printed. -/
def Result.unplaced (r : Result) : Result :=
  { r with msgInfo := r.msgInfo.map (·.numbered 0 0), haveITCPrintInfo := false }

theorem unplaced_beside (o : Elsewhere E) (rc : DQErr) : ((t.beside c o).result want rc).unplaced =
    (t.result want rc).unplaced := by
  have hmsg : (reported want.msg t.msgSet (t.messageInfo.numbered o.reportedNum
      o.reportedOffset)).map (·.numbered 0 0) = (reported want.msg t.msgSet t.messageInfo).map
        (·.numbered 0 0) := reported_eq rfl (fun _ => rfl) fun _ _ => rfl
  exact congrArg (fun m => { (t.result want rc).unplaced with msgInfo := m }) hmsg

/-- What has been reported before a call makes no difference to it. -/
theorem Trace.Returns.of_decoder (hE : E.archSize = 32 ∨ E.archSize = 64)
    (hs : s.toDecoder = t.toDecoder) {rc : DQErr} (h : t.Returns want locals rc t₁) :
    ∃ s₁, s.Returns want locals rc s₁ ∧ s₁.toDecoder = t₁.toDecoder ∧ (s₁.result want rc).unplaced =
      (t₁.result want rc).unplaced := by
  have hagree : t.Agree ⟨True, True, True⟩ s :=
    ⟨by rw [hs], fun _ => by rw [hs], fun _ => by rw [hs]⟩
  have hkept : Terms.Kept ⟨True, True, True⟩ want want := ⟨fun _ => rfl, fun _ => rfl, fun _ => rfl⟩
  obtain ⟨s₁, hret, halike⟩ := hagree.returns hE hkept h
  have hdecoder : s₁.toDecoder = t₁.toDecoder.withQueues s₁.itcPrint :=
    Decoder.eq_of_blind halike.decoder (halike.pending trivial)
  have hresult := halike.result hkept rc
  refine ⟨s₁, hret, ?_, ?_⟩
  · rw [hdecoder, ← halike.queues trivial]
    rfl
  · have hinst : (t₁.result want rc).instInfo = (s₁.result want rc).instInfo := by
      cases hw : want.inst
      · simp [Trace.result, reported, hw]
      · exact hresult.pending trivial hw
    have hsrc : (t₁.result want rc).srcInfo = (s₁.result want rc).srcInfo := by
      cases hw : want.src
      · simp [Trace.result, reported, hw]
      · exact hresult.src hw hw
    have hmsg : (t₁.result want rc).msgInfo = (s₁.result want rc).msgInfo :=
      hresult.addr trivial trivial
    unfold Result.unplaced
    rw [← hinst, ← hsrc, ← hmsg, hresult.error]
    rfl

theorem Trace.Returns.loop {rc : DQErr} (h : t.Returns want locals rc t₁) (hok : t.status = .ok) :
    ∃ n, ∀ fuel, n ≤ fuel → TraceM.loop fuel want locals fuel t.start = .error (.ret rc) t₁ := by
  obtain ⟨n, hrun⟩ := h
  refine ⟨n, fun fuel hfuel => ?_⟩
  have hcall := hrun fuel hfuel
  rw [Trace.NextInstruction, if_neg (by simp [hok])] at hcall
  cases hloop : TraceM.loop fuel want locals fuel t.start with
  | ok => simp [hloop] at hcall
  | error e t' =>
    rw [hloop] at hcall
    cases e with
    | outOfFuel => cases hcall
    | ret => cases hcall; rfl

theorem Trace.Returns.status_ok (h : t.Returns want locals .ok t₁) : t.status = .ok := by
  obtain ⟨n, hrun⟩ := h
  have hcall := hrun n le_rfl
  by_contra hok
  rw [Trace.NextInstruction, if_pos hok] at hcall
  exact hok (Prod.mk.inj (Option.some.inj hcall)).1

/-- A call on a message of the core, begun with or without reading, beside
one that does the same. -/
theorem Alongside.returns (hE : E.archSize = 32 ∨ E.archSize = 64) {u s' : Trace E}
    {p : SliceFileParser} {a : Analytics}
    (hmerged : AtMessages srcbits msgs u.sfp u.analytics)
    (halone : AtMessages srcbits (ofCore srcbits c msgs) p a)
    (hs : s.toDecoder = s'.toDecoder) (hs' : s'.Returns want locals .ok s₁)
    (h : Alongside c u p t₁ s₁) :
    ∃ s₂, s.Returns want locals .ok s₂ ∧ (s₂.result want .ok).unplaced =
      (t₁.result want .ok).unplaced ∧ TwoFiles srcbits c msgs t₁ s₂ := by
  obtain ⟨s₂, hret, hdecoder, hresult⟩ := Trace.Returns.of_decoder hE hs hs'
  refine ⟨s₂, hret, hresult.trans ?_, TwoFiles.of_alongside hmerged halone h hdecoder⟩
  obtain ⟨o, -, rfl⟩ := h.beside
  exact unplaced_beside o .ok

/-- What a call of the merged run says of the run on the messages of one core. -/
def KeepsUp (srcbits c : ℕ) (want : Want) (locals : Locals) (msgs : List (List Byte))
    (t₁ s : Trace E) : Prop :=
  (t₁.currentCore ≠ c ∧ TwoFiles srcbits c msgs t₁ s) ∨
  (t₁.currentCore = c ∧ ∃ s₁, s.Returns want locals .ok s₁ ∧ (s₁.result want .ok).unplaced =
    (t₁.result want .ok).unplaced ∧ TwoFiles srcbits c msgs t₁ s₁)

theorem TwoFiles.call_busy (hE : E.archSize = 32 ∨ E.archSize = 64) (hconverts : ¬ E.Converts)
    (h : TwoFiles srcbits c msgs t s)
    (hret : t.Returns want locals .ok t₁) (hread : t.readNewTraceMessage = false) :
    KeepsUp srcbits c want locals msgs t₁ s := by
  have hok := hret.status_ok
  obtain ⟨n, hloop⟩ := hret.loop hok
  have hlockstep (k : ℕ) (t₀ : Trace E) (p : SliceFileParser) : Lockstep want want locals locals
      (Alongside k t₀ p) :=
    (Alongside.localized k t₀ p).lockstep hconverts want locals
  have hstart {k : ℕ} (hw : t.WorksOn k) : t.start.WorksOn k :=
    ⟨hw.currentCore, hw.nmCore, hw.noError, hw.caTrace, hw.traceType⟩
  rcases h.turn with ⟨hreads, -⟩ | ⟨-, hreads, k, hk, hworks⟩ | ⟨-, hworks, o, hs⟩
  · rw [hread] at hreads
    cases hreads
  · have halong := (hlockstep k t.start t.start.sfp).loopAlike ⟨Alongside.refl (hstart hworks), rfl,
      rfl⟩ hread (n := n + 4) (by omega) (hloop (n + 5) (by omega)) (hloop (n + 5) (by omega))
    refine .inl ⟨?_, TwoFiles.of_spares (u := t.start) h.merged h.alone
      ⟨h.same.core, h.same.itcPrint, h.same.perfConverter, h.same.eventConverter, h.same.caSyncAddr,
        h.same.syncCount, h.same.unset⟩ hk halong.2.worksOn halong.2.spares (h.status hok)
        h.caTrace.2
      h.traceType.2 hreads⟩
    rw [halong.2.worksOn.currentCore]
    exact hk.symm
  · have hsread : s.readNewTraceMessage = false := by
      rw [hs]
      exact hread
    have hjams : ¬ (t.beside c o).Jams := fun hj => by
      have hj' : (t.beside c o).readNewTraceMessage = true := hj.2.2.1
      exact absurd (hread.symm.trans hj') (by simp)
    obtain ⟨rc, s₁, hs₁⟩ := Trace.exists_returns want locals hjams
    obtain ⟨n', hloop'⟩ := hs₁.loop hok
    have hsfp : (t.beside c o).sfp = s.sfp := by
      rw [hs]
      rfl
    have hbegin : Alongside c t.start s.sfp t.start (t.beside c o).start :=
      ⟨hstart hworks, Trace.Spares.refl c _, o, hsfp, rfl⟩
    obtain ⟨hrc, halong⟩ :=
      (hlockstep c t.start s.sfp).loopAlike ⟨hbegin, rfl, rfl⟩ hread (n := n + n' + 4) (by omega)
        (hloop _ (by omega)) (hloop' _ (by omega))
    cases hrc
    exact .inr ⟨halong.worksOn.currentCore, halong.returns hE (u := t.start) (a := s.analytics)
      h.merged h.alone hs hs₁⟩

theorem TwoFiles.call_reads (hE : E.archSize = 32 ∨ E.archSize = 64) (hconverts : ¬ E.Converts)
    {msg : List Byte} (hplain : Plain srcbits msg)
    (h : TwoFiles srcbits c (msg :: msgs) t s) (hret : t.Returns want locals .ok t₁)
    (hread : t.readNewTraceMessage = true)
    (hsread : s.readNewTraceMessage = true) : KeepsUp srcbits c want locals msgs t₁ s := by
  have hok := hret.status_ok
  obtain ⟨n, hloop⟩ := hret.loop hok
  obtain ⟨hframed, content, hcontent, -, herror⟩ := hplain
  obtain ⟨hrc, -, hnm, hnext⟩ := readNextTraceMsg_holding t.nm hframed hcontent h.merged
  cases hbody : extended E content.body with
  | none =>
    obtain ⟨t', hfails⟩ :=
      loop_refuses (t := t.start) hframed hcontent h.merged hread hbody want locals n n
    rw [hloop (n + 1) (by omega)] at hfails
    cases hfails
  | some body =>
    have htakes :=
      loop_takes (t := t.start) hframed hcontent h.merged hread h.traceType.1 hbody want locals
    have hworks : ((afterRead t.start).taking body).WorksOn content.coreId.toNat :=
      worksOn_taking (t := t.start) hframed hcontent h.merged hbody herror h.caTrace.1 h.traceType.1
    have haside : PutAside want want (filterWant E want body) (filterWant E want body) := by
      unfold filterWant
      split_ifs
      · exact .inr ⟨rfl, rfl⟩
      · exact .inl ⟨rfl, rfl⟩
    have hlockstep (k : ℕ) (t₀ : Trace E) (p : SliceFileParser) : Lockstep want want locals locals
        (Alongside k t₀ p) :=
      (Alongside.localized k t₀ p).lockstep hconverts want locals
    have hunset : ((afterRead t.start).taking body).nm.unset = t.nm.unset := by
      change (t.sfp.readNextTraceMsg t.analytics t.nm).nm.unset = t.nm.unset
      rw [hnm]
      rfl
    have hsame : SameCore c ((afterRead t.start).taking body) s :=
      ⟨h.same.core, h.same.itcPrint, h.same.perfConverter, h.same.eventConverter, h.same.caSyncAddr,
        h.same.syncCount, h.same.unset.trans hunset.symm⟩
    by_cases hc : content.coreId.toNat = c
    · subst hc
      have halone : AtMessages srcbits (msg :: ofCore srcbits content.coreId.toNat msgs) s.sfp
          s.analytics := by
        have hfilter : ofCore srcbits content.coreId.toNat (msg :: msgs) = msg :: ofCore srcbits
            content.coreId.toNat msgs :=
          List.filter_cons_of_pos (by simp [hcontent])
        exact hfilter ▸ h.alone
      -- the second trace with what the first has reported before
      let s' : Trace E := { t with toDecoder := s.toDecoder }
      obtain ⟨hrc', -, hnm', hnext'⟩ := readNextTraceMsg_holding s.nm hframed hcontent halone
      have hjams : ¬ s'.Jams := fun hj => by
        have hbm := ((SliceFileParser.jams_iff _ _ _).mp hj.2.2.2).1
        rw [show (s'.sfp.readNextTraceMsg s'.analytics s'.nm).rc = .ok from hrc'] at hbm
        cases hbm
      obtain ⟨rc, s₁, hs₁⟩ := Trace.exists_returns want locals hjams
      obtain ⟨n', hloop'⟩ := hs₁.loop (h.status hok)
      have htakes' :=
        loop_takes (t := s'.start) hframed hcontent halone hsread h.traceType.2 hbody want locals
      have hbeside : (afterRead s'.start).taking body =
          ((afterRead t.start).taking body).beside content.coreId.toNat ((afterRead s'.start).taking
            body).elsewhere := by
        have hnm₂ : ((afterRead s'.start).taking body).nm =
            ((afterRead t.start).taking body).nm.numbered ((afterRead s'.start).taking
              body).nm.msgNum ((afterRead s'.start).taking body).nm.offset := by
          change { (s.sfp.readNextTraceMsg s.analytics s.nm).nm with body := body } =
            ({ (t.sfp.readNextTraceMsg t.analytics t.nm).nm with body := body } :
              NexusMessage).numbered (s.sfp.readNextTraceMsg s.analytics s.nm).nm.msgNum
                (s.sfp.readNextTraceMsg s.analytics s.nm).nm.offset
          rw [hnm, hnm']
          exact holding_numbered h.same.unset msg content body _ _ _ _
        have hcore : ((afterRead s'.start).taking body).nm.core = content.coreId.toNat := by
          change (s.sfp.readNextTraceMsg s.analytics s.nm).nm.core = _
          rw [hnm']
          rfl
        have hsame₂ : SameCore content.coreId.toNat ((afterRead t.start).taking body)
            ((afterRead s'.start).taking body) := by
          refine ⟨hsame.core, hsame.itcPrint, hsame.perfConverter, hsame.eventConverter,
            hsame.caSyncAddr, hsame.syncCount, ?_⟩
          rw [hnm₂]
          rfl
        exact hsame₂.eq_beside ((h.status hok).trans hok.symm)
          (h.traceType.2.trans h.traceType.1.symm) (hnext'.analytics.trans hnext.analytics.symm)
            hnm₂ rfl (hcore.trans hworks.currentCore.symm) (h.caTrace.2.trans h.caTrace.1.symm) rfl
            rfl rfl
      have hbegin : Alongside content.coreId.toNat ((afterRead t.start).taking body)
          (s.sfp.readNextTraceMsg s.analytics s.nm).parser ((afterRead t.start).taking body)
            ((afterRead s'.start).taking body) := ⟨hworks, Trace.Spares.refl _ _, _, rfl, hbeside⟩
      obtain ⟨hrc₂, halong⟩ :=
        (hlockstep _ _ _).afterPrepare haside ⟨hbegin, rfl, rfl⟩ rfl (n := n + n' + 4) (by omega)
          ((htakes (n + n' + 4) (n + n' + 4)).symm.trans (hloop (n + n' + 5) (by omega)))
        ((htakes' (n + n' + 4) (n + n' + 4)).symm.trans (hloop' (n + n' + 5) (by omega)))
      cases hrc₂
      exact .inr ⟨halong.worksOn.currentCore, halong.returns hE
        (u := (afterRead t.start).taking body)
          (a := (s.sfp.readNextTraceMsg s.analytics s.nm).analytics) hnext hnext'
          (show s.toDecoder = s'.toDecoder from rfl) hs₁⟩
    · obtain ⟨-, halong⟩ :=
        (hlockstep content.coreId.toNat ((afterRead t.start).taking body) _).afterPrepare haside
          ⟨Alongside.refl hworks, rfl, rfl⟩ rfl (n := n + 4) (by omega)
          ((htakes (n + 4) (n + 4)).symm.trans (hloop (n + 5) (by omega)))
        ((htakes (n + 4) (n + 4)).symm.trans (hloop (n + 5) (by omega)))
      have halone : AtMessages srcbits (ofCore srcbits c msgs) s.sfp s.analytics := by
        have hfilter : ofCore srcbits c (msg :: msgs) = ofCore srcbits c msgs :=
          List.filter_cons_of_neg (by simp [hcontent, hc])
        exact hfilter ▸ h.alone
      refine .inl ⟨?_, TwoFiles.of_spares (u := (afterRead t.start).taking body) hnext halone hsame
        (Ne.symm hc) halong.worksOn halong.spares (h.status hok) h.caTrace.2 h.traceType.2 hsread⟩
      rw [halong.worksOn.currentCore]
      exact hc

/-- **One call** of the merged run. -/
theorem TwoFiles.call (hE : E.archSize = 32 ∨ E.archSize = 64) (hconverts : ¬ E.Converts)
    (hplain : ∀ msg ∈ msgs, Plain srcbits msg)
    (h : TwoFiles srcbits c msgs t s) (hret : t.Returns want locals .ok t₁) :
    ∃ msgs', (∀ msg ∈ msgs', Plain srcbits msg) ∧ KeepsUp srcbits c want locals msgs' t₁ s := by
  cases hread : t.readNewTraceMessage with
  | false => exact ⟨msgs, hplain, h.call_busy hE hconverts hret hread⟩
  | true =>
    have hsread : s.readNewTraceMessage = true := by
      rcases h.turn with ⟨-, hs⟩ | ⟨hbusy, -⟩ | ⟨hbusy, -⟩
      · exact hs
      · simp [hread] at hbusy
      · simp [hread] at hbusy
    cases msgs with
    | cons msg msgs =>
      obtain ⟨hmsg, hrest⟩ := List.forall_mem_cons.mp hplain
      exact ⟨msgs, hrest, h.call_reads hE hconverts hmsg hret hread hsread⟩
    | nil =>
      have hok := hret.status_ok
      obtain ⟨n, hloop⟩ := hret.loop hok
      have hends : ∃ t', readMessages (n + 1) t.start = .error (.ret .eof) t' := by
        have heof : (t.start.sfp.readNextTraceMsg t.start.analytics t.start.nm).rc = .eof :=
          (readNextTraceMsg_end t.nm h.merged).1
        rw [readMessages_succ, heof]
        exact ⟨_, rfl⟩
      obtain ⟨t', hends⟩ := hends
      have hrun := hloop (n + 1) (by omega)
      rw [loop_of_message (t := t.start) hread, bind_error hends] at hrun
      cases hrun

end

/-! ### Runs -/

/-- A run of calls that all return `DQERR_OK`, with the traces behind them. -/
inductive Run (want : Want) : Trace E → List (Locals × Trace E) → Trace E → Prop
  | nil (t : Trace E) : Run want t [] t
  | cons {locals : Locals} {t t₁ t' : Trace E} {calls : List (Locals × Trace E)}
      (hcall : t.Returns want locals .ok t₁) (hrest : Run want t₁ calls t') :
        Run want t ((locals, t₁) :: calls) t'

def SameReport (want : Want) (call call' : Locals × Trace E) : Prop :=
  call'.1 = call.1 ∧ (call'.2.result want .ok).unplaced = (call.2.result want .ok).unplaced

theorem TwoFiles.run (hE : E.archSize = 32 ∨ E.archSize = 64) (hconverts : ¬ E.Converts)
    {srcbits : ℕ} {msgs : List (List Byte)} {t t' s : Trace E}
    {calls : List (Locals × Trace E)} (hrun : Run want t calls t')
    (hplain : ∀ msg ∈ msgs, Plain srcbits msg) (h : TwoFiles srcbits c msgs t s) :
    ∃ calls' s' msgs', Run want s calls' s' ∧ (∀ msg ∈ msgs', Plain srcbits msg) ∧
      TwoFiles srcbits c msgs' t' s' ∧
      List.Forall₂ (SameReport want) (calls.filter fun call => call.2.currentCore = c) calls' := by
  induction hrun generalizing msgs s with
  | nil t => exact ⟨[], s, msgs, .nil s, hplain, h, .nil⟩
  | @cons locals t t₁ t' calls hcall _ ih =>
    obtain ⟨msgs₁, hplain₁, hfollows⟩ := h.call hE hconverts hplain hcall
    rcases hfollows with ⟨hcore, hfiles⟩ | ⟨hcore, s₁, hcall', hreport, hfiles⟩
    · obtain ⟨calls', s', msgs', hrun', hplain', hfiles', hreports⟩ := ih hplain₁ hfiles
      refine ⟨calls', s', msgs', hrun', hplain', hfiles', ?_⟩
      rwa [List.filter_cons_of_neg (by simp [hcore])]
    · obtain ⟨calls', s', msgs', hrun', hplain', hfiles', hreports⟩ := ih hplain₁ hfiles
      refine ⟨(locals, s₁) :: calls', s', msgs', .cons hcall' hrun', hplain', hfiles', ?_⟩
      rw [List.filter_cons_of_pos (by simp [hcore])]
      exact .cons ⟨rfl, hreport⟩ hreports

theorem twoFiles_init (c srcbits : ℕ) (msgs : List (List Byte)) :
    TwoFiles srcbits c msgs (Trace.init E .htm (.init srcbits msgs.flatten) none)
      (Trace.init E .htm (.init srcbits (ofCore srcbits c msgs).flatten) none) where
  merged := ⟨rfl, rfl, rfl, rfl, rfl⟩
  alone := ⟨rfl, rfl, rfl, rfl, rfl⟩
  same := ⟨rfl, rfl, fun _ => rfl, rfl, rfl, rfl, rfl⟩
  status := id
  caTrace := ⟨rfl, rfl⟩
  traceType := ⟨rfl, rfl⟩
  turn := .inl ⟨rfl, rfl⟩

def Trace.Finished (t : Trace E) : Prop := t.readNewTraceMessage = true ∧ t.sfp.tf = []

theorem TwoFiles.finished {srcbits : ℕ} {msgs : List (List Byte)} {t s : Trace E}
    (h : TwoFiles srcbits c msgs t s)
    (hplain : ∀ msg ∈ msgs, Plain srcbits msg) (ht : t.Finished) : s.Finished := by
  obtain ⟨hread, htf⟩ := ht
  have hmsgs : msgs = [] := by
    cases msgs with
    | nil => rfl
    | cons msg msgs =>
      have hlen := (hplain msg List.mem_cons_self).1.two_le_length
      have hflat : msg ++ msgs.flatten = [] := by rw [← List.flatten_cons, ← h.merged.tf, htf]
      rw [(List.append_eq_nil_iff.mp hflat).1] at hlen
      simp at hlen
  subst hmsgs
  refine ⟨?_, h.alone.tf⟩
  rcases h.turn with ⟨-, hs⟩ | ⟨hbusy, -⟩ | ⟨hbusy, -⟩
  · exact hs
  · simp [hread] at hbusy
  · simp [hread] at hbusy

/-- The synchronisation of a core below 4, in a file with core ids of two bits. -/
def syncOf (core : Byte) : List Byte := [0x24, core <<< 2, 0x01, 0x00, 0x0b]

def returnEnv : Env :=
  Env.bareMetal false (Program.ofWords fun a => if a = 0x100 then some 0x8067 else none)

end TraceDecoder
