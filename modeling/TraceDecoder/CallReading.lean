import TraceDecoder.NextInstruction
import TraceDecoder.Oversize
import TraceDecoder.Recovery
import TraceDecoder.StateExits

/-!
# Calls that read

A read that is given bytes takes some of them, or leaves an error that stays in the parser. So the
loop of a call that reads ends, unless an error that stays as `DQERR_BM` is tolerated again and
again.
-/

namespace TraceDecoder

open EStateM SliceFileParser

/-! ### Reading moves on -/

namespace SliceFileParser

variable {s : SliceFileParser} {analytics : Analytics} {nm : NexusMessage}

theorem collectSlices_length {msg tf slices tf' : List Byte}
    (h : collectSlices msg tf = .msg slices tf') :
    msg.length < slices.length := by
  induction tf generalizing msg with
  | nil =>
    rw [collectSlices] at h
    split_ifs at h
  | cons b tf ih =>
    rw [collectSlices] at h
    split_ifs at h with hfull hend
    · cases h
      simp
    · have hlt := ih h
      simp at hlt
      omega

/-- A message that has been read is in front of the parser with two slices at least. -/
theorem readBinaryMsg_msg {haveMsg : Bool} {s' : SliceFileParser}
    (h : readBinaryMsg s = (.ok, haveMsg, s')) :
    haveMsg = true ∧ s'.status = s.status ∧ s'.bitIndex = 0 ∧ s'.eom = false ∧
      s'.msgSlices = s'.msg.length ∧ 2 ≤ s'.msg.length := by
  rw [readBinaryMsg] at h
  cases hskip : skipIdle (if s.flushMessage then skipMessage s.tf else s.tf) with
  | nil =>
    rw [hskip] at h
    cases h
  | cons b tf =>
    rw [hskip] at h
    dsimp only at h
    cases hc : collectSlices [b] tf with
    | eof =>
      rw [hc] at h
      cases h
    | bm tf' =>
      rw [hc] at h
      cases h
    | msg slices tf' =>
      rw [hc] at h
      cases h
      exact ⟨rfl, rfl, rfl, rfl, rfl, collectSlices_length hc⟩

theorem readNextTraceMsg_stuck (h : s.status ≠ .ok) :
    s.readNextTraceMsg analytics nm = ⟨s.status, false, nm, s, analytics⟩ := if_pos h

/-- What a read leaves: it has a message, or an error that is not in the parser, and fewer bytes are
left; or the parser keeps the error. -/
theorem readNextTraceMsg_cases (s : SliceFileParser) (analytics : Analytics) (nm : NexusMessage) :
    let r := s.readNextTraceMsg analytics nm
    r.parser.tf.length ≤ s.tf.length ∧ (r.haveMsg = true ↔ r.rc = .ok) ∧
      (r.parser.status = .ok → r.parser.tf.length < s.tf.length ∧ (r.rc = .ok ∨ r.rc = .bm)) ∧
      (r.rc = .ok → r.parser.status = .ok) := by
  intro r
  by_cases hstatus : s.status = .ok
  · have htf := readBinaryMsg_tf s
    have hr : r = s.readNextTraceMsg analytics nm := rfl
    rw [readNextTraceMsg, if_neg (by simp [hstatus])] at hr
    obtain ⟨⟨rc, haveMsg, s'⟩, hread⟩ : ∃ q, readBinaryMsg s = q := ⟨_, rfl⟩
    rw [hread] at hr htf
    obtain ⟨hsuffix, -, hshort⟩ := htf
    have hle := hsuffix.length_le
    cases rc with
    | ok =>
      obtain ⟨rfl, hkeeps, hbit, heom, hslices, h2⟩ := readBinaryMsg_msg hread
      have hlt := (hshort rfl).2
      have hparse := parseTraceMsg_alone s' hbit heom hslices h2
      dsimp only at hr
      rw [if_neg (by simp)] at hr
      cases hrun : parseTraceMsg s' with
      | error e s'' =>
        rw [hrun] at hr hparse
        obtain ⟨-, bitIndex, eom, rc, hs'', -⟩ := hparse
        have htf'' : s''.tf = s'.tf := by rw [hs'']
        rw [hr]
        dsimp only
        rw [htf'']
        exact ⟨hle, by simp, fun _ => ⟨hlt, .inr rfl⟩, by simp⟩
      | ok m s'' =>
        rw [hrun] at hr hparse
        obtain ⟨-, -, bitIndex, eom, hs''⟩ := hparse
        have htf'' : s''.tf = s'.tf := by rw [hs'']
        dsimp only at hr
        split_ifs at hr with hanalytics
        · rw [hr]
          dsimp only
          rw [htf'']
          exact ⟨hle, by simp, fun _ => ⟨hlt, .inr rfl⟩, by simp⟩
        · rw [hr]
          dsimp only
          rw [htf'']
          exact ⟨hle, by simp, fun _ => ⟨hlt, .inl rfl⟩, fun _ => rfl⟩
    | _ =>
      have hs' : s'.status ≠ .ok := by
        have hstays : (readBinaryMsg s).1 ≠ .ok → (readBinaryMsg s).2.2.status ≠ .ok := by
          rw [readBinaryMsg]
          cases skipIdle (if s.flushMessage then skipMessage s.tf else s.tf) with
          | nil => simp
          | cons b tf =>
            dsimp only
            cases collectSlices [b] tf <;> simp
        rw [hread] at hstays
        exact hstays (by simp)
      rw [hr]
      exact ⟨hle, by simp, fun hok => absurd hok hs', by simp⟩
  · have hr : r = ⟨s.status, false, nm, s, analytics⟩ := readNextTraceMsg_stuck hstatus
    rw [hr]
    exact ⟨le_rfl, by simp [hstatus], fun hok => absurd hok hstatus, fun hok => absurd hok hstatus⟩

/-- The messages in front are passed over because nothing parses their code, up to one that leaves
`DQERR_BM` in the parser. -/
inductive Jams : SliceFileParser → Analytics → NexusMessage → Prop
  | stuck {s : SliceFileParser} {analytics : Analytics} {nm : NexusMessage}
    (hrc : (s.readNextTraceMsg analytics nm).rc = .bm)
      (hstatus : (s.readNextTraceMsg analytics nm).parser.status = .bm) : Jams s analytics nm
  | pass {s : SliceFileParser} {analytics : Analytics} {nm : NexusMessage}
      (hrc : (s.readNextTraceMsg analytics nm).rc = .bm)
        (hstatus : (s.readNextTraceMsg analytics nm).parser.status = .ok)
      (h : Jams (s.readNextTraceMsg analytics nm).parser (s.readNextTraceMsg analytics nm).analytics
        (s.readNextTraceMsg analytics nm).nm) : Jams s analytics nm

theorem jams_iff (s : SliceFileParser) (analytics : Analytics) (nm : NexusMessage) :
    Jams s analytics nm ↔
      let r := s.readNextTraceMsg analytics nm
      r.rc = .bm ∧ (r.parser.status = .bm ∨ r.parser.status = .ok ∧ Jams r.parser r.analytics
        r.nm) := by
  constructor
  · intro h
    cases h with
    | stuck hrc hstatus => exact ⟨hrc, .inl hstatus⟩
    | pass hrc hstatus h => exact ⟨hrc, .inr ⟨hstatus, h⟩⟩
  · rintro ⟨hrc, hstatus | ⟨hstatus, h⟩⟩
    · exact .stuck hrc hstatus
    · exact .pass hrc hstatus h

theorem jams_of_status (h : s.status = .bm) : Jams s analytics nm := by
  have hstuck : s.readNextTraceMsg analytics nm = ⟨s.status, false, nm, s, analytics⟩ :=
    readNextTraceMsg_stuck (by simp [h])
  apply Jams.stuck <;> rw [hstuck] <;> exact h

end SliceFileParser

variable {E : Env}

namespace TraceM

/-! ### The loop that reads -/

def afterRead (t : Trace E) : Trace E :=
  let r := t.sfp.readNextTraceMsg t.analytics t.nm
  { t with toDecoder := { t.toDecoder with sfp := r.parser, analytics := r.analytics, nm := r.nm } }

theorem readMessages_succ (n : ℕ) (t : Trace E) :
    readMessages (n + 1) t =
      (checkRead (t.sfp.readNextTraceMsg t.analytics t.nm).rc >>= fun _ =>
        onlyIf ((t.sfp.readNextTraceMsg t.analytics t.nm).haveMsg = false) (readMessages n))
          (afterRead t) := rfl

/-- With enough turns the loops of a program end, and it makes no difference
how many more there are. -/
def Ends {α : Type} (p : ℕ → TraceM E α) (t : Trace E) : Prop :=
  ∃ n r, (∀ m, n ≤ m → p m t = r) ∧ ∀ t', r ≠ .error .outOfFuel t'

theorem ends_of_succ {α : Type} {p : ℕ → TraceM E α} {t : Trace E}
    {r : EStateM.Result Exit (Trace E) α}
    (h : ∀ n, p (n + 1) t = r) (hr : ∀ t', r ≠ .error .outOfFuel t') : Ends p t := by
  refine ⟨1, r, fun m hm => ?_, hr⟩
  obtain ⟨m, rfl⟩ : ∃ k, m = k + 1 := ⟨m - 1, by omega⟩
  exact h m

theorem Ends.of_succ {α : Type} {p : ℕ → TraceM E α} {t t' : Trace E} (h : Ends p t')
    (hstep : ∀ n, p (n + 1) t = p n t') :
    Ends p t := by
  obtain ⟨n, r, hrun, hr⟩ := h
  refine ⟨n + 1, r, fun m hm => ?_, hr⟩
  obtain ⟨m, rfl⟩ : ∃ k, m = k + 1 := ⟨m - 1, by omega⟩
  rw [hstep, hrun m (by omega)]

def afterError (t : Trace E) : Trace E :=
  { afterRead t with toDecoder := (afterRead t).toDecoder.resetTraceAll }

theorem readMessages_bm {t : Trace E} (htolerate : E.tolerateErrors = true)
    (hrc : (t.sfp.readNextTraceMsg t.analytics t.nm).rc = .bm) (n : ℕ) :
    readMessages (n + 1) t = readMessages n { afterError t with tolerantError := true } := by
  have hmsg : (t.sfp.readNextTraceMsg t.analytics t.nm).haveMsg = false := by
    have hcases := (readNextTraceMsg_cases t.sfp t.analytics t.nm).2.1
    rw [hrc] at hcases
    simpa using hcases
  rw [readMessages_succ, hrc, hmsg]
  simp only [checkRead, htolerate, if_true]
  rfl

theorem readMessages_error {t t' : Trace E} {rc : DQErr}
    (h : checkRead (t.sfp.readNextTraceMsg t.analytics t.nm).rc (afterRead t) = .error (.ret rc)
      t') : Ends readMessages t := by
  apply ends_of_succ (r := .error (.ret rc) t')
  · intro n
    rw [readMessages_succ]
    exact bind_error h
  · simp

/-- An error that stays in the parser ends the loop unless it is `DQERR_BM`. -/
theorem readMessages_stuck {t : Trace E} (hok : t.sfp.status ≠ .ok) (hbm : t.sfp.status ≠ .bm) :
    Ends readMessages t := by
  have hrc : (t.sfp.readNextTraceMsg t.analytics t.nm).rc = t.sfp.status := by
    rw [readNextTraceMsg_stuck hok]
  rw [← hrc] at hok hbm
  cases hr : (t.sfp.readNextTraceMsg t.analytics t.nm).rc
  case ok => exact absurd hr hok
  case bm => exact absurd hr hbm
  all_goals
    apply readMessages_error
    rw [hr]
    rfl

/-- **The loop that reads** ends unless it tolerates an error that the
parser gives again and again. -/
theorem readMessages_ends (t : Trace E)
    (h : ¬ (E.tolerateErrors = true ∧ Jams t.sfp t.analytics t.nm)) : Ends readMessages t := by
  obtain ⟨k, hk⟩ : ∃ k, t.sfp.tf.length = k := ⟨_, rfl⟩
  induction k using Nat.strong_induction_on generalizing t with
  | _ k ih =>
    obtain ⟨-, hhave, hstatus, -⟩ := readNextTraceMsg_cases t.sfp t.analytics t.nm
    cases hrc : (t.sfp.readNextTraceMsg t.analytics t.nm).rc
    case ok =>
      have hmsg := hhave.mpr hrc
      refine ends_of_succ (r := .ok () (afterRead t)) (fun n => ?_) (by simp)
      rw [readMessages_succ, hrc, hmsg]
      rfl
    case bm =>
      by_cases htolerate : E.tolerateErrors = true
      · have hjams : ¬ Jams t.sfp t.analytics t.nm := fun hj => h ⟨htolerate, hj⟩
        rw [jams_iff] at hjams
        refine Ends.of_succ ?_ (readMessages_bm htolerate hrc)
        by_cases hpassed : (t.sfp.readNextTraceMsg t.analytics t.nm).parser.status = .ok
        · refine ih _ (hk ▸ (hstatus hpassed).1) _ ?_ rfl
          rintro ⟨-, hj⟩
          exact hjams ⟨hrc, .inr ⟨hpassed, hj⟩⟩
        · exact readMessages_stuck hpassed fun hbm => hjams ⟨hrc, .inl hbm⟩
      · apply readMessages_error
        rw [hrc]
        simp only [checkRead, htolerate]
        rfl
    all_goals
      apply readMessages_error
      rw [hrc]
      rfl

theorem readMessages_jams (htolerate : E.tolerateErrors = true) (n : ℕ) {t : Trace E}
    (h : Jams t.sfp t.analytics t.nm) :
    ∃ t', readMessages n t = .error .outOfFuel t' := by
  induction n generalizing t with
  | zero => exact ⟨t, rfl⟩
  | succ n ih =>
    obtain ⟨hrc, hnext⟩ := (jams_iff _ _ _).mp h
    rw [readMessages_bm htolerate hrc]
    apply ih
    rcases hnext with hbm | ⟨-, hj⟩
    · exact jams_of_status hbm
    · exact hj

end TraceM

end TraceDecoder
