import TraceDecoder.NextInstruction

/-!
# The two resets

`resetTrace` resets one core or, given -1, all of them, in two branches of its own. The branch for
all cores does not touch the return-address stacks.
-/

namespace TraceDecoder

variable {E : Env}

namespace CoreState

/-- A core that `resetTrace(core)` resets. -/
def resetAlone (k : CoreState) (bareMetal : Bool) : CoreState :=
  { k.reset bareMetal with counts := k.counts.resetCounts.resetStack }

theorem resetAlone_resetAlone (k : CoreState) (bareMetal : Bool) :
    (k.resetAlone bareMetal).resetAlone bareMetal = k.resetAlone bareMetal := by
  cases bareMetal <;> rfl

/-- The branch for all cores leaves a core as the branch for one does if it has no calls pending. -/
theorem resetAlone_eq_reset_iff (k : CoreState) (bareMetal : Bool) :
    k.resetAlone bareMetal = k.reset bareMetal ↔ k.counts.stack = AddrStack.init := by
  constructor
  · intro h
    have hstack := congrArg (·.counts.stack) h
    exact hstack.symm
  · intro h
    have hcounts : k.counts.resetCounts.resetStack = k.counts.resetCounts := by
      rw [Count.resetStack, Count.resetCounts, AddrStack.reset, h]
    rw [resetAlone, hcounts]
    rfl

end CoreState

namespace Decoder

/-- `resetTrace(c)` for every core. -/
def resetTraceEach (d : Decoder E) : Decoder E := (List.range DQR_MAXCORES).foldl resetTrace d

def ResetsAgree (d : Decoder E) : Prop :=
  ∀ c < DQR_MAXCORES, d.resetTraceAll.core c = d.resetTraceEach.core c

theorem core_resetTrace (d : Decoder E) (i c : ℕ) :
    (d.resetTrace i).core c = if c = i then (d.core c).resetAlone E.isBareMetal else d.core c := by
  by_cases h : c = i
  · subst h
    rw [if_pos rfl]
    simp only [resetTrace, core_modifyCore_self]
    rfl
  · rw [if_neg h]
    simp only [resetTrace, core_modifyCore_of_ne d _ h]

theorem core_foldl_resetTrace (cores : List ℕ) (d : Decoder E) (c : ℕ) :
    (cores.foldl resetTrace d).core c = if c ∈ cores then (d.core c).resetAlone E.isBareMetal
      else d.core c := by
  induction cores generalizing d with
  | nil => rfl
  | cons i cores ih =>
    rw [List.foldl_cons, ih, core_resetTrace]
    by_cases hi : c = i
    · by_cases hmem : c ∈ cores
      · rw [if_pos hmem, if_pos hi, if_pos (List.mem_cons_of_mem _ hmem),
          CoreState.resetAlone_resetAlone]
      · rw [if_neg hmem, if_pos hi, if_pos (hi ▸ List.mem_cons_self)]
    · rw [if_neg hi]
      by_cases hmem : c ∈ cores
      · rw [if_pos hmem, if_pos (List.mem_cons_of_mem _ hmem)]
      · rw [if_neg hmem, if_neg (by simp [hi, hmem])]

theorem core_resetTraceEach (d : Decoder E) {c : ℕ} (hc : c < DQR_MAXCORES) :
    d.resetTraceEach.core c = (d.core c).resetAlone E.isBareMetal := by
  rw [resetTraceEach, core_foldl_resetTrace, if_pos (List.mem_range.mpr hc)]

/-- **The two resets agree** if and only if no core has calls pending. -/
theorem resetsAgree_iff (d : Decoder E) :
    d.ResetsAgree ↔ ∀ c < DQR_MAXCORES, (d.core c).counts.stack = AddrStack.init := by
  refine forall₂_congr fun c hc => ?_
  rw [core_resetTraceEach d hc, ← CoreState.resetAlone_eq_reset_iff (d.core c) E.isBareMetal]
  exact eq_comm

end Decoder

inductive Trace.Reachable : Trace E → Prop
  | init (traceType : TraceType) (sfp : SliceFileParser) (caTrace : Option E.CATrace) :
      Reachable (Trace.init E traceType sfp caTrace)
  | call {t t' : Trace E} {fuel : ℕ} {want : Want} {locals : Locals} {rc : DQErr} (h : Reachable t)
      (hcall : t.NextInstruction fuel want locals = some (rc, t')) : Reachable t'

def callProgram : Program := Program.ofWords fun a => if a = 0 then some 0x008000ef else none

def callTrace : Trace (Env.bareMetal false callProgram) :=
  Trace.init _ .btm (SliceFileParser.init 0 [0x24, 0x15, 0x03, 0x0c, 0x0b]) none

def steppedTrace : Option (Trace (Env.bareMetal false callProgram)) :=
  (callTrace.NextInstruction 20 ⟨true, true, true⟩ ⟨0, 0, 0, 0, 0⟩).bind fun r =>
    (r.2.NextInstruction 20 ⟨true, true, true⟩ ⟨0, 0, 0, 0, 0⟩).map Prod.snd

theorem reachable_steppedTrace {t : Trace (Env.bareMetal false callProgram)}
    (h : steppedTrace = some t) : t.Reachable := by
  obtain ⟨r, hfirst, hsecond⟩ := Option.bind_eq_some_iff.mp h
  obtain ⟨r', hcall, rfl⟩ := Option.map_eq_some_iff.mp hsecond
  exact .call (.call (.init _ _ _) hfirst) hcall

theorem entries_steppedTrace : steppedTrace.map (fun t => (t.core 0).counts.stack.entries) = some
    [4] := by
  decide +kernel

/-- After a call the resets disagree. -/
theorem not_resetsAgree_of_reachable :
    ¬ ∀ t : Trace (Env.bareMetal false callProgram), t.Reachable → t.ResetsAgree := by
  intro hall
  obtain ⟨t, hrun, hentries⟩ := Option.map_eq_some_iff.mp entries_steppedTrace
  have hempty :=
    (Decoder.resetsAgree_iff t.toDecoder).mp (hall t (reachable_steppedTrace hrun)) 0 (by decide)
  rw [hempty] at hentries
  exact absurd hentries (by decide)

end TraceDecoder
