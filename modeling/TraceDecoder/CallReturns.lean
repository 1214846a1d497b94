import TraceDecoder.CallStates

/-!
# Calls return

A call of `NextInstruction` reads messages until it has one, and then works on it in at most three
states. The only loop that may not end is the one that reads.
-/

namespace TraceDecoder

open EStateM SliceFileParser

variable {E : Env}

namespace TraceM

variable {p : SliceFileParser} {want : Want} {locals : Locals}
variable {result : Except DQErr Stepped} {c : Count} {post : Unit → Trace E → Prop}

/-! ### A call that reads -/

def prepare (want : Want) : TraceM E Want := do
  modifyD fun d => { d with readNewTraceMessage := false, currentCore := d.nm.core }
  signExtendAddrs
  switchTraceType
  let body ← readD (·.nm.body)
  return filterWant E want body

theorem leaves_prepare (want : Want) :
    Leaves (fun t : Trace E => t.sfp = p) (prepare want) (fun _ => Held p false) fun e _ => e =
      .ret .err := by
  have hread : Leaves (fun t : Trace E => t.sfp = p)
      (modifyD fun d => { d with readNewTraceMessage := false, currentCore := d.nm.core })
        (fun _ => Held p false) fun e _ => e = .ret .err := Leaves.modify fun t h => ⟨h, rfl⟩
  have hfail : Leaves (Held (E := E) p false) fail (fun _ => Held p false) fun e _ => e =
    .ret .err := fun _ _ => rfl
  refine hread.bind fun _ => Leaves.bind (Leaves.onlyIf (fun _ => held_readD.bind fun body => ?_)
      fun _ _ h => h) fun _ =>
    Leaves.bind (held_readD.bind fun traceType => Leaves.onlyIf (fun _ => held_readD.bind
        fun body => ?_) fun _ _ h => h) fun _ =>
      held_readD.bind fun body => Leaves.pure fun _ h => h
  · cases signExtendBody E.bitsPerAddress body with
    | some body => exact held_modifyD (fun _ => rfl) fun _ => rfl
    | none => exact hfail
  · cases traceTypeAfter body with
    | some traceType => exact held_modifyD (fun _ => rfl) fun _ => rfl
    | none => exact hfail

theorem readMessages_ok (n : ℕ) {t t' : Trace E} (h : readMessages n t = .ok () t') :
    t'.sfp.tf.length < t.sfp.tf.length := by
  induction n generalizing t with
  | zero => cases h
  | succ n ih =>
    obtain ⟨hle, hhave, hshort, hok⟩ := readNextTraceMsg_cases t.sfp t.analytics t.nm
    cases hrc : (t.sfp.readNextTraceMsg t.analytics t.nm).rc
    case ok =>
      rw [readMessages_succ, hrc, hhave.mpr hrc] at h
      cases h
      exact (hshort (hok hrc)).1
    case bm =>
      by_cases htolerate : E.tolerateErrors = true
      · rw [readMessages_bm htolerate hrc] at h
        exact (ih h).trans_le hle
      · rw [readMessages_succ, hrc] at h
        simp only [checkRead, htolerate] at h
        cases h
    all_goals
      rw [readMessages_succ, hrc] at h
      cases h

theorem loop_of_message {t : Trace E} (hread : t.readNewTraceMessage = true) (fuel n : ℕ) :
    loop fuel want locals (n + 1) t = (readMessages fuel >>= fun _ => prepare want >>= fun want' =>
        work want' locals >>= fun _ =>
      loop fuel want locals n) t := by
  have hreceive : receive fuel want t = (readMessages fuel >>= fun _ => prepare want) t := by
    change (if t.readNewTraceMessage = true then receiveMessage fuel want else pure want : TraceM
      E Want) t = _
    rw [if_pos hread]
    rfl
  change ((receive fuel want >>= fun want' => work want' locals) >>= fun _ => loop fuel want
    locals n) t = _
  rw [bind_run, bind_run, hreceive, bind_run, bind_run]
  cases readMessages fuel t with
  | error => rfl
  | ok u t₁ =>
    dsimp only
    rw [bind_run]
    cases prepare want t₁ <;> rfl

theorem readMessages_error_ne (n : ℕ) : Leaves (fun _ : Trace E => True) (readMessages n)
    (fun _ _ => True) fun e _ => e ≠ .ret .ok := by
  have hset {u : Trace E → Trace E} : Leaves (fun _ : Trace E => True) (modify u : TraceM E Unit)
      (fun _ _ => True) fun e _ => e ≠ .ret .ok := leaves_anywhere
  have hret {rc : DQErr} (h : rc ≠ .ok) : Leaves (fun _ : Trace E => True) (ret rc)
      (fun _ _ => True) fun e _ => e ≠ .ret .ok :=
    Leaves.throw fun _ _ => by simp [h]
  induction n with
  | zero => exact Leaves.throw fun _ _ => by simp
  | succ n ih =>
    intro t _
    rw [readMessages_succ]
    refine Leaves.bind (?_ : Leaves (fun _ => True) _ (fun _ _ => True) _)
      (fun _ => Leaves.onlyIf (fun _ => ih) fun _ _ _ => trivial) _ trivial
    cases (t.sfp.readNextTraceMsg t.analytics t.nm).rc
    case ok => exact Leaves.pure fun _ _ => trivial
    case eof => exact hset.bind fun _ => hset.bind fun _ => hret (by simp)
    case bm =>
      refine hset.bind fun _ => ?_
      split_ifs
      · exact hset
      · exact hset.bind fun _ => hret (by simp)
    all_goals exact hset.bind fun _ => hset.bind fun _ => hret (by simp)

/-- A call that reads its message: it ends as one that works on the message,
unless reading ends it. -/
theorem loop_reads_ends (want : Want) (locals : Locals) {t : Trace E}
    (hread : t.readNewTraceMessage = true) (h : Ends readMessages t) :
    ∃ rc t' n, (∀ fuel m, n ≤ fuel → 4 ≤ m → loop fuel want locals m t = .error (.ret rc) t') ∧
      (rc = .ok → ∃ t₁, t₁.readNewTraceMessage = false ∧ t₁.sfp.tf.length < t.sfp.tf.length ∧
        Ended t₁ rc t') := by
  obtain ⟨n, r, hrun, hr⟩ := h
  have hloop (fuel m : ℕ) (hm : 4 ≤ m) : loop fuel want locals m t =
      (readMessages fuel >>= fun _ => prepare want >>= fun want' =>
      work want' locals >>= fun _ => loop fuel want locals (m - 1)) t := by
    rw [← loop_of_message hread, Nat.sub_add_cancel (by omega)]
  cases r with
  | error e t' =>
    have hne := readMessages_error_ne n t trivial
    rw [hrun n le_rfl] at hne
    cases e with
    | outOfFuel => exact absurd rfl (hr t')
    | ret rc =>
      exact ⟨rc, t', n, fun fuel m hfuel hm => by rw [hloop fuel m hm,
        bind_error (hrun fuel hfuel)], fun hok => absurd (congrArg _ hok) hne⟩
  | ok u t₁ =>
    have hlt := readMessages_ok n (hrun n le_rfl)
    have hprepare := leaves_prepare want t₁ rfl
    cases hq : prepare want t₁ with
    | error e t' =>
      rw [hq] at hprepare
      refine ⟨.err, t', n, fun fuel m hfuel hm => ?_, by simp⟩
      rw [hloop fuel m hm, bind_ok (hrun fuel hfuel), bind_error hq, hprepare]
    | ok want' t₂ =>
      rw [hq] at hprepare
      have hlt' : t₂.sfp.tf.length < t.sfp.tf.length := hprepare.sfp ▸ hlt
      rcases work_endsOrGoesOn want' locals hprepare.readNew with
        ⟨rc, t', hwork, hended⟩ | ⟨t₃, hwork, hheld, hturns⟩
      · refine ⟨rc, t', n, fun fuel m hfuel hm => ?_, fun _ => ⟨t₂, hprepare.readNew, hlt', hended⟩⟩
        rw [hloop fuel m hm, bind_ok (hrun fuel hfuel), bind_ok hq, bind_error hwork]
      · obtain ⟨rc, t', hloop', hended⟩ := loop_ends want locals hheld.readNew
        refine ⟨rc, t', n, fun fuel m hfuel hm => ?_, fun _ => ⟨t₂, hprepare.readNew, hlt',
          hended.of_goesOn hheld hturns⟩⟩
        have hthree : turns t₂.here.state ≤ 3 := by cases t₂.here.state <;> simp [turns]
        rw [hloop fuel m hm, bind_ok (hrun fuel hfuel), bind_ok hq, bind_ok hwork,
          hloop' fuel (m - 1) (by omega)]

end TraceM

/-! ### All calls -/

variable {want : Want} {locals : Locals}

def Trace.Jams (t : Trace E) : Prop :=
  t.status = .ok ∧ E.tolerateErrors = true ∧ t.readNewTraceMessage = true ∧
    t.sfp.Jams t.analytics t.nm

theorem NextInstruction_of_loop {t t' : Trace E} {fuel : ℕ} {rc : DQErr} (hok : t.status = .ok)
    (hloop : TraceM.loop fuel want locals fuel t.start = .error (.ret rc) t') :
    t.NextInstruction fuel want locals = some (rc, t') := by
  rw [Trace.NextInstruction, if_neg (by simp [hok]), hloop]

def Trace.Returns (want : Want) (locals : Locals) (t : Trace E) (rc : DQErr) (t' : Trace E) :
    Prop :=
  ∃ n, ∀ fuel, n ≤ fuel → t.NextInstruction fuel want locals = some (rc, t')

/-! ### Fuel -/

/-- Where the first program does not run out of fuel, the second does the same. -/
def Extends {α : Type} (p q : TraceM E α) : Prop :=
  ∀ t, (∀ t', p t ≠ .error .outOfFuel t') → q t = p t

namespace Extends

variable {α β : Type}

theorem refl (p : TraceM E α) : Extends p p := fun _ _ => rfl

theorem bind {p q : TraceM E α} {f g : α → TraceM E β} (hp : Extends p q)
    (hf : ∀ a, Extends (f a) (g a)) : Extends (p >>= f) (q >>= g) := by
  intro t hends
  have hpt : ∀ t', p t ≠ .error .outOfFuel t' := fun t' h => hends t' (bind_error h)
  have hq := hp t hpt
  cases hrun : p t with
  | error e t' => rw [bind_error hrun, bind_error (hq.trans hrun)]
  | ok a t' =>
    rw [bind_ok hrun, bind_ok (hq.trans hrun)]
    exact hf a t' fun t'' h => hends t'' ((bind_ok hrun).trans h)

theorem onlyIf {c : Prop} [Decidable c] {p q : TraceM E Unit} (h : Extends p q) :
    Extends (EStateM.onlyIf c p) (EStateM.onlyIf c q) := by
  by_cases hc : c
  · simpa only [EStateM.onlyIf, if_pos hc] using h
  · simpa only [EStateM.onlyIf, if_neg hc] using refl (pure ())

theorem readMessages {n m : ℕ} (h : n ≤ m) :
    Extends (E := E) (TraceM.readMessages n) (TraceM.readMessages m) := by
  induction n generalizing m with
  | zero => exact fun t hends => absurd rfl (hends t)
  | succ n ih =>
    obtain ⟨m, rfl⟩ : ∃ k, m = k + 1 := ⟨m - 1, by omega⟩
    exact bind (refl _) fun r => bind (refl _) fun _ => onlyIf (ih (by omega))

theorem loop {fuel fuel' n m : ℕ} (hfuel : fuel ≤ fuel') (h : n ≤ m) :
    Extends (TraceM.loop (E := E) fuel want locals n) (TraceM.loop fuel' want locals m) := by
  induction n generalizing m with
  | zero => exact fun t hends => absurd rfl (hends t)
  | succ n ih =>
    obtain ⟨m, rfl⟩ : ∃ k, m = k + 1 := ⟨m - 1, by omega⟩
    have hreceive : Extends (TraceM.receive (E := E) fuel want) (TraceM.receive fuel' want) := by
      refine bind (refl _) fun readNew => ?_
      cases readNew
      · exact refl _
      · exact bind (readMessages hfuel) fun _ => refl _
    exact bind (bind hreceive fun _ => refl _) fun _ => ih (by omega)

end Extends

theorem Trace.returns_of_some {t t' : Trace E} {rc : DQErr} {fuel : ℕ}
    (h : t.NextInstruction fuel want locals = some (rc, t')) :
    t.Returns want locals rc t' := by
  refine ⟨fuel, fun n hn => ?_⟩
  rw [← h]
  unfold Trace.NextInstruction at h ⊢
  by_cases hok : t.status = .ok
  · rw [if_neg (by simp [hok])] at h
    rw [if_neg (by simp [hok]), if_neg (by simp [hok])]
    have hextends : Extends (E := E) (TraceM.loop fuel want locals fuel)
      (TraceM.loop n want locals n) := Extends.loop hn hn
    have hloop := hextends t.start
    cases hrun : TraceM.loop fuel want locals fuel t.start with
    | ok => simp [hrun] at h
    | error e t₁ =>
      rw [hrun] at h hloop
      cases e with
      | outOfFuel => cases h
      | ret rc => rw [hloop (by simp)]
  · rw [if_pos hok, if_pos hok]

/-! ### Which calls return -/

theorem Trace.Returns.not_jams {t t' : Trace E} {rc : DQErr} (h : t.Returns want locals rc t') :
    ¬ t.Jams := by
  rintro ⟨hok, htolerate, hread, hjams⟩
  obtain ⟨n, hrun⟩ := h
  obtain ⟨t₁, hjam⟩ := TraceM.readMessages_jams (t := t.start) htolerate (n + 1) hjams
  have hloop : TraceM.loop (n + 1) want locals (n + 1) t.start = .error .outOfFuel t₁ := by
    rw [TraceM.loop_of_message (t := t.start) hread, bind_error hjam]
  have hnone := hrun (n + 1) (by omega)
  rw [Trace.NextInstruction, if_neg (by simp [hok]), hloop] at hnone
  cases hnone

theorem Trace.exists_returns (want : Want) (locals : Locals) {t : Trace E} (h : ¬ t.Jams) :
    ∃ rc t', t.Returns want locals rc t' := by
  by_cases hok : t.status = .ok
  · cases hread : t.readNewTraceMessage with
    | false =>
      obtain ⟨rc, t', hloop, -⟩ := TraceM.loop_ends want locals (t := t.start) hread
      exact ⟨rc, t', _, fun fuel hfuel => NextInstruction_of_loop hok (hloop fuel fuel hfuel)⟩
    | true =>
      have hends : TraceM.Ends TraceM.readMessages t.start :=
        TraceM.readMessages_ends _ fun hjams => h ⟨hok, hjams.1, hread, hjams.2⟩
      obtain ⟨rc, t', n, hloop, -⟩ := TraceM.loop_reads_ends want locals (t := t.start) hread hends
      exact ⟨rc, t', n + 4, fun fuel hfuel => NextInstruction_of_loop hok
        (hloop fuel fuel (by omega) (by omega))⟩
  · exact ⟨t.status, _, 0, fun fuel _ => by rw [Trace.NextInstruction, if_pos hok]⟩

/-- **A call returns** exactly if it does not jam. -/
theorem NextInstruction_returns_iff (want : Want) (locals : Locals) (t : Trace E) :
    (∃ rc t', t.Returns want locals rc t') ↔ ¬ t.Jams :=
  ⟨fun ⟨_, _, h⟩ => h.not_jams, Trace.exists_returns want locals⟩

end TraceDecoder
