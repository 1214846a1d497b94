import TraceDecoder.OutputPointers

/-!
# Calls with null pointers

What a caller sees of a call is decided by what it wants to know, and a run of calls goes on as if
every caller had wanted everything.
-/

namespace TraceDecoder

open EStateM TraceM

variable {E : Env}

section
variable {terms : Terms} {want want' : Want} {locals : Locals} {t t' : Trace E}

/-! ### Reading -/

theorem Fresh.on (h : Fresh (Alike terms want want') t t') {u : Decoder E → Decoder E}
    (hu : Blindly u) :
    Fresh (Alike terms want want') (t.on u) (t'.on u) := ⟨h.rel.on hu, h.left, h.right⟩

theorem blindly_read : Blindly (E := E) fun d =>
    { d with
      sfp := (d.sfp.readNextTraceMsg d.analytics d.nm).parser, analytics :=
        (d.sfp.readNextTraceMsg d.analytics d.nm).analytics,
      nm := (d.sfp.readNextTraceMsg d.analytics d.nm).nm } := ⟨fun _ => rfl, fun _ _ => rfl⟩

theorem blindly_begin :
    Blindly (E := E) fun d => { d with readNewTraceMessage := false, currentCore := d.nm.core } :=
  ⟨fun _ => rfl, fun _ _ => rfl⟩

theorem blindly_body (body : MessageBody) : Blindly (E := E) fun d => { d with nm.body := body } :=
  ⟨fun _ => rfl, fun _ _ => rfl⟩

theorem Alike.checkRead (rc : DQErr) : Matches (Fresh (Alike (E := E) terms want want'))
    (Fresh (Alike terms want want')) (TraceM.checkRead rc) (TraceM.checkRead rc) := by
  have hshares : Shares (Fresh (Alike (E := E) terms want want')) := Alike.shares.fresh
  cases rc
  case ok => exact Matches.pure
  case eof => exact (hshares.setState _).bind fun _ => (hshares.setStatus _).bind fun _ =>
    matches_ret
  case bm =>
    refine (hshares.modifyD .tolerantError).bind fun _ => ?_
    split_ifs
    · exact Matches.modify fun _ _ h => h.on Blindly.resetTraceAll
    · exact (hshares.setState _).bind fun _ => matches_ret
  all_goals exact hshares.fail

theorem Alike.readMessages (n : ℕ) : Matches (Fresh (Alike (E := E) terms want want'))
    (Fresh (Alike terms want want')) (TraceM.readMessages n) (TraceM.readMessages n) := by
  induction n with
  | zero => exact Matches.throw fun _ _ h => h
  | succ n ih =>
    intro t t' h
    have hread : t.sfp.readNextTraceMsg t.analytics t.nm = t'.sfp.readNextTraceMsg t'.analytics
        t'.nm :=
      Decoder.same_of_blind h.rel.decoder (fun d => d.sfp.readNextTraceMsg d.analytics d.nm)
        fun _ => rfl
    rw [readMessages_succ, readMessages_succ, ← hread]
    exact ((Alike.checkRead _).bind fun _ => Matches.onlyIf fun _ => ih) _ _ (h.on blindly_read)

theorem Alike.prepare : Coupled (Fresh (Alike (E := E) terms want want')) (TraceM.prepare want)
    (TraceM.prepare want')
    (fun wanted wanted' t t' => PutAside want want' wanted wanted' ∧ Fresh (Alike terms want want')
      t t') (Fresh (Alike terms want want')) := by
  have hshares : Shares (Fresh (Alike (E := E) terms want want')) := Alike.shares.fresh
  have hextend : Matches (Fresh (Alike (E := E) terms want want')) (Fresh (Alike terms want want'))
      signExtendAddrs signExtendAddrs := by
    refine Matches.onlyIf fun _ => hshares.readBody.bind fun body => ?_
    cases signExtendBody E.bitsPerAddress body with
    | some body => exact Matches.modify fun _ _ h => h.on (blindly_body body)
    | none => exact hshares.fail
  have hswitch : Matches (Fresh (Alike (E := E) terms want want')) (Fresh (Alike terms want want'))
      switchTraceType switchTraceType := by
    refine Matches.bind (Matches.read fun _ _ h => hshares.traceType h) fun traceType =>
      Matches.onlyIf fun _ => hshares.readBody.bind fun body => ?_
    cases traceTypeAfter body with
    | some ty => exact Matches.modify fun _ _ h => h.on (Blindly.traceType ty)
    | none => exact hshares.fail
  refine Coupled.bind_same (Matches.modify fun _ _ h => h.on blindly_begin)
      fun _ => Coupled.bind_same hextend fun _ =>
    Coupled.bind_same hswitch fun _ => Coupled.bind_same hshares.readBody fun body => Coupled.pure
      fun t t' h => ⟨?_, h⟩
  unfold filterWant
  split_ifs
  · exact .inr ⟨rfl, rfl⟩
  · exact .inl ⟨rfl, rfl⟩

/-! ### One call -/

theorem Alike.loop (hE : E.archSize = 32 ∨ E.archSize = 64) (hkept : terms.Kept want want')
    (h : Fresh (Alike terms want want') t t')
    {fuel n : ℕ} (hn : 4 ≤ n) {e e' : Exit} {t₁ t₁' : Trace E}
    (hrun : TraceM.loop fuel want locals (n + 1) t = .error e t₁)
    (hrun' : TraceM.loop fuel want' locals (n + 1) t' = .error e' t₁') :
    e = e' ∧ Alike terms want want' t₁ t₁' := by
  have hlockstep : Lockstep want want' locals locals (Alike (E := E) terms want want') :=
    Alike.lockstep hE hkept locals
  have hsame : t.readNewTraceMessage = t'.readNewTraceMessage := Alike.shares.readNew h.rel
  cases hread : t.readNewTraceMessage with
  | false => exact hlockstep.loopAlike h hread hn hrun hrun'
  | true =>
    rw [loop_of_message hread] at hrun
    rw [loop_of_message (hsame.symm.trans hread)] at hrun'
    rcases (Alike.readMessages fuel).fails h hrun hrun' with ⟨rfl, halike⟩ | ⟨-, -, t₂, t₂', -, -,
      ⟨-, h₂⟩, hrest, hrest'⟩
    · exact ⟨rfl, halike.rel⟩
    rcases Alike.prepare.fails h₂ hrest hrest' with ⟨rfl, halike⟩ | ⟨wanted, wanted', t₃, t₃', hp,
      -, ⟨haside, h₃⟩, hwork, hwork'⟩
    · exact ⟨rfl, halike.rel⟩
    have hheld : Held t₂.sfp false t₃ := (leaves_prepare want).of_ok rfl hp
    exact hlockstep.afterPrepare haside h₃ hheld.readNew hn hwork hwork'

/-! ### Calls -/

/-- Decoders that have been told the same, but for what the callers wanted to know. -/
structure Trace.Agree (terms : Terms) (t t' : Trace E) : Prop where
  decoder : t.toDecoder.blind = t'.toDecoder.blind
  pending : terms.inst → t.core = t'.core
  queues : terms.msg → t.itcPrint = t'.itcPrint

theorem Trace.Agree.refl (terms : Terms) (t : Trace E) : t.Agree terms t :=
  ⟨rfl, fun _ => rfl, fun _ => rfl⟩

theorem Alike.agree (h : Alike terms want want' t t') : t.Agree terms t' :=
  ⟨h.decoder, h.pending, h.queues⟩

theorem Trace.Agree.alike (h : t.Agree terms t') (hinst : t.instSet = false)
    (hinst' : t'.instSet = false) (hsrc : t.srcSet = false)
    (hsrc' : t'.srcSet = false) (hmsg : t.msgSet = false) (hmsg' : t'.msgSet = false) :
    Alike terms want want' t t' where
  decoder := h.decoder
  pending := h.pending
  queues := h.queues
  source := by simp [hinst]
  source' := by simp [hinst']
  inst := by simp [hinst, hinst']
  src := by simp [hsrc, hsrc']
  msg := by simp [hmsg, hmsg']

theorem Trace.Agree.start (h : t.Agree terms t') :
    Fresh (Alike terms want want') t.start t'.start := by
  refine ⟨Agree.alike ⟨?_, h.pending, h.queues⟩ rfl rfl rfl rfl rfl rfl, rfl, rfl⟩
  exact Decoder.same_of_blind h.decoder
    (fun d => { d with consumed := false, tolerantError := false }.blind) fun _ => rfl

/-- **One call**: both callers are told the same of what both want to know. -/
theorem Trace.Agree.returns (hE : E.archSize = 32 ∨ E.archSize = 64) (hkept : terms.Kept want want')
    (h : t.Agree terms t') {rc : DQErr}
    {t₁ : Trace E} (hret : t.Returns want locals rc t₁) :
    ∃ t₁', t'.Returns want' locals rc t₁' ∧ Alike terms want want' t₁ t₁' := by
  have hjams : ¬ t'.Jams := by
    have hsame : t'.Jams = t.Jams :=
      (Decoder.same_of_blind h.decoder (fun d => d.status = .ok ∧ E.tolerateErrors = true ∧
        d.readNewTraceMessage = true ∧ d.sfp.Jams d.analytics d.nm) fun _ => rfl).symm
    rw [hsame]
    exact hret.not_jams
  obtain ⟨rc', t₁', hret'⟩ := Trace.exists_returns want' locals hjams
  obtain ⟨n, hrun⟩ := hret
  obtain ⟨n', hrun'⟩ := id hret'
  specialize hrun (n + n' + 5) (by omega)
  specialize hrun' (n + n' + 5) (by omega)
  suffices hsame : rc = rc' ∧ Alike terms want want' t₁ t₁' from ⟨t₁', hsame.1 ▸ hret', hsame.2⟩
  have hstatus : t.status = t'.status := Decoder.same_of_blind h.decoder (·.status) fun _ => rfl
  unfold Trace.NextInstruction at hrun hrun'
  by_cases hok : t.status = .ok
  · rw [if_neg (by simp [hok])] at hrun
    rw [if_neg (by simp [← hstatus, hok])] at hrun'
    cases hloop : TraceM.loop (n + n' + 5) want locals (n + n' + 5) t.start with
    | ok => simp [hloop] at hrun
    | error e t₂ =>
      cases hloop' : TraceM.loop (n + n' + 5) want' locals (n + n' + 5) t'.start with
      | ok => simp [hloop'] at hrun'
      | error e' t₂' =>
        obtain ⟨rfl, halike⟩ :=
          Alike.loop hE hkept h.start (n := n + n' + 4) (by omega) hloop hloop'
        rw [hloop] at hrun
        rw [hloop'] at hrun'
        cases e with
        | outOfFuel => cases hrun
        | ret =>
          cases hrun
          cases hrun'
          exact ⟨rfl, halike⟩
  · rw [if_pos hok] at hrun
    rw [if_pos (hstatus ▸ hok)] at hrun'
    cases hrun
    cases hrun'
    exact ⟨hstatus, Agree.alike ⟨h.decoder, h.pending, h.queues⟩ rfl rfl rfl rfl rfl rfl⟩

/-! ### What the callers see -/

def Instruction.settled (i : Instruction) : Instruction := { i with CRFlag := CRFlag.isNone }

/-- What the callers see of a call, as far as both of them want to know. -/
structure Result.Alike (terms : Terms) (want want' : Want) (r r' : Result) : Prop where
  rc : r.rc = r'.rc
  error : r.error = r'.error
  inst : want.inst → want'.inst → r.instInfo.map Instruction.settled =
    r'.instInfo.map Instruction.settled
  pending : terms.inst → want.inst → r.instInfo = r'.instInfo
  src : want.src → want'.src → r.srcInfo = r'.srcInfo
  msg : terms.msg → r.msgInfo.isSome = r'.msgInfo.isSome ∧ r.haveITCPrintInfo = r'.haveITCPrintInfo
  addr : terms.msg → terms.addr → r.msgInfo = r'.msgInfo

theorem reported_eq {α β : Type} {wanted wanted' set set' : Bool} {info info' : α} {f : α → β}
    (hwanted : wanted = wanted')
    (hset : wanted → set = set') (hinfo : wanted → set → f info = f info') :
    (reported wanted set info).map f = (reported wanted' set' info').map f := by
  subst hwanted
  cases wanted
  · rfl
  · have hset := hset rfl
    subst hset
    cases set
    · rfl
    · exact congrArg some (hinfo rfl rfl)

theorem Alike.result (hkept : terms.Kept want want') (h : Alike terms want want' t t')
    (rc : DQErr) :
    Result.Alike terms want want' (t.result want rc) (t'.result want' rc) where
  rc := rfl
  error := Decoder.same_of_blind h.decoder (·.tolerantError) fun _ => rfl
  inst hw hw' := reported_eq (hw.trans hw'.symm) (fun _ => (h.inst hw hw').1) fun _ hset =>
    ((h.inst hw hw').2 hset).1
  pending hterm hw := by
    have hinst := h.inst hw (hkept.inst hterm ▸ hw)
    have hsame := reported_eq (f := id) (hkept.inst hterm) (fun _ => hinst.1) fun _ hset =>
      (hinst.2 hset).2 hterm
    rwa [Option.map_id, id, id] at hsame
  src hw hw' := by
    have hsame := reported_eq (f := id) (hw.trans hw'.symm) (fun _ => (h.src hw hw').1)
      fun _ hset => (h.src hw hw').2 hset
    rwa [Option.map_id, id, id] at hsame
  msg hterm := by
    have hsame : (reported want.msg t.msgSet t.messageInfo).map (fun _ => ()) =
        (reported want'.msg t'.msgSet t'.messageInfo).map fun _ => () :=
      reported_eq (hkept.msg hterm) (fun hw => (h.msg hterm hw).1) fun _ _ => rfl
    refine ⟨?_, ?_⟩
    · have hsome := congrArg Option.isSome hsame
      rwa [Option.isSome_map, Option.isSome_map] at hsome
    · change (E.haveITCPrint && (List.range E.numCores).any fun c => E.hasMsgs (t.itcPrint c)) = _
      rw [h.queues hterm]
      rfl
  addr hterm haddr := by
    have hsame := reported_eq (f := id) (hkept.msg hterm) (fun hw => (h.msg hterm hw).1)
      fun hw hset => (h.msg hterm hw).2 haddr hset
    rwa [Option.map_id, id, id] at hsame

end

/-- A run of calls goes on as if the callers had wanted something else, as
far as both want to know. -/
theorem calls_alike (hE : E.archSize = 32 ∨ E.archSize = 64) (terms : Terms) {want want' : ℕ → Want}
    (hkept : ∀ n, terms.Kept (want n) (want' n)) (locals : ℕ → Locals) {t : ℕ → Trace E}
    {rc : ℕ → DQErr} {N : ℕ} (h : ∀ n < N, (t n).Returns (want n) (locals n) (rc n) (t (n + 1))) :
    ∃ t' : ℕ → Trace E, t' 0 = t 0 ∧ ∀ n < N, (t' n).Returns (want' n) (locals n) (rc n)
      (t' (n + 1)) ∧
      Result.Alike terms (want n) (want' n) ((t (n + 1)).result (want n) (rc n))
        ((t' (n + 1)).result (want' n) (rc n)) := by
  suffices hrun : ∃ t' : ℕ → Trace E, t' 0 = t 0 ∧ (t N).Agree terms (t' N) ∧ ∀ n < N,
      (t' n).Returns (want' n) (locals n) (rc n) (t' (n + 1)) ∧
        Alike terms (want n) (want' n) (t (n + 1)) (t' (n + 1)) by
    obtain ⟨t', hstart, -, hcalls⟩ := hrun
    exact ⟨t', hstart, fun n hn => ⟨(hcalls n hn).1, (hcalls n hn).2.result (hkept n) (rc n)⟩⟩
  induction N with
  | zero => exact ⟨t, rfl, Trace.Agree.refl terms _, fun n hn => absurd hn (by omega)⟩
  | succ N ih =>
    obtain ⟨t', hstart, hagree, hcalls⟩ := ih fun n hn => h n (by omega)
    obtain ⟨s, hreturns, halike⟩ := hagree.returns hE (hkept N) (h N (by omega))
    have hold {n : ℕ} (hn : n ≤ N) : Function.update t' (N + 1) s n = t' n := by
      rw [Function.update_of_ne (by omega)]
    have hnew : Function.update t' (N + 1) s (N + 1) = s := Function.update_self _ _ _
    refine ⟨Function.update t' (N + 1) s, (hold (by omega)).trans
      hstart, by rw [hnew]; exact halike.agree, fun n hn => ?_⟩
    rcases Nat.lt_succ_iff_lt_or_eq.mp hn with hlt | rfl
    · rw [hold (by omega), hold (by omega)]
      exact hcalls n hlt
    · rw [hold le_rfl, hnew]
      exact ⟨hreturns, halike⟩

/-- A trace of a program with one instruction: the synchronisation at its address. -/
def syncedTrace : Trace (Env.bareMetal false (Program.ofWords fun a => if a = 0x100 then some 0x8067
      else none)) :=
  Trace.init _ .htm (SliceFileParser.init 0 [0x24, 0x01, 0x00, 0x0b]) none

def noLocals : Locals := ⟨0, 0, 0, 0, 0⟩

end TraceDecoder
