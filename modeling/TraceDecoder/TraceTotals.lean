import Mathlib.Algebra.BigOperators.Group.Finset.Piecewise
import Mathlib.Algebra.Group.Nat.Defs
import TraceDecoder.Analytics

/-!
# The totals of the analytics

Each message is counted for its core and its type. Its bits are credited to its type too, those of a
correlation message apart, which go to the indirect branch messages with sync.
-/

namespace TraceDecoder

open scoped BigOperators

/-- The arguments of a call of `updateTraceInfo`. -/
structure TraceInfo where
  nm : NexusMessage
  (bits mseo_bits ts_bits addr_bits : Counter)

def tracedTypes : Finset TCode :=
  {.ownershipTrace, .directBranch, .indirectBranch, .dataAcquisition, .error, .sync,
    .directBranchWS, .indirectBranchWS, .auxAccessWrite, .correlation, .indirectBranchHistory,
      .indirectBranchHistoryWS, .resourceFull, .inCircuitTrace,
    .inCircuitTraceWS}

/-! ### The counters of a core -/

namespace CoreAnalytics

variable (c : CoreAnalytics)

/-- `num_trace_<type>` -/
def num_trace : TCode → Counter
  | .ownershipTrace => c.num_trace_ownership
  | .directBranch => c.num_trace_dbranch
  | .indirectBranch => c.num_trace_ibranch
  | .dataAcquisition => c.num_trace_dataacq
  | .error => c.num_trace_error
  | .sync => c.num_trace_syncs
  | .directBranchWS => c.num_trace_dbranchws
  | .indirectBranchWS => c.num_trace_ibranchws
  | .auxAccessWrite => c.num_trace_auxaccesswrite
  | .correlation => c.num_trace_correlation
  | .indirectBranchHistory => c.num_trace_ihistory
  | .indirectBranchHistoryWS => c.num_trace_ihistoryws
  | .resourceFull => c.num_trace_resourcefull
  | .inCircuitTrace => c.num_trace_incircuittrace
  | .inCircuitTraceWS => c.num_trace_incircuittraceWS
  | _ => 0

/-- `trace_bits_<type>` -/
def trace_bits_of : TCode → Counter
  | .ownershipTrace => c.trace_bits_ownership
  | .directBranch => c.trace_bits_dbranch
  | .indirectBranch => c.trace_bits_ibranch
  | .dataAcquisition => c.trace_bits_dataacq
  | .error => c.trace_bits_error
  | .sync => c.trace_bits_sync
  | .directBranchWS => c.trace_bits_dbranchws
  | .indirectBranchWS => c.trace_bits_ibranchws
  | .auxAccessWrite => c.trace_bits_auxaccesswrite
  | .correlation => c.trace_bits_correlation
  | .indirectBranchHistory => c.trace_bits_ihistory
  | .indirectBranchHistoryWS => c.trace_bits_ihistoryws
  | .resourceFull => c.trace_bits_resourcefull
  | .inCircuitTrace => c.trace_bits_incircuittrace
  | .inCircuitTraceWS => c.trace_bits_incircuittraceWS
  | _ => 0

/-- What `updateTraceInfo` does to the counters of the message's core. -/
def addTraceInfo (m : TraceInfo) : CoreAnalytics :=
  ((c.addMessage m.bits m.mseo_bits).addTimestamp m.ts_bits).addBody m.nm.body m.bits m.addr_bits

/-- The counters of the messages of each type and of all messages are the same. -/
structure SameTotals (c d : CoreAnalytics) : Prop where
  num_trace : d.num_trace = c.num_trace
  trace_bits_of : d.trace_bits_of = c.trace_bits_of
  num_trace_msgs : d.num_trace_msgs = c.num_trace_msgs
  trace_bits : d.trace_bits = c.trace_bits

variable {c} {d e : CoreAnalytics}

theorem SameTotals.trans (h : c.SameTotals d) (h' : d.SameTotals e) : c.SameTotals e :=
  ⟨h'.num_trace.trans h.num_trace, h'.trace_bits_of.trans h.trace_bits_of,
    h'.num_trace_msgs.trans h.num_trace_msgs, h'.trace_bits.trans h.trace_bits⟩

variable (c)

theorem sameTotals_addTimestamp (ts_bits : Counter) : c.SameTotals (c.addTimestamp ts_bits) := by
  unfold addTimestamp
  split_ifs <;> exact ⟨rfl, rfl, rfl, rfl⟩

theorem sameTotals_addResourceFull (r : ResourceFull) : c.SameTotals (c.addResourceFull r) := by
  cases r <;> exact ⟨rfl, rfl, rfl, rfl⟩

end CoreAnalytics

def MessageBody.credited : MessageBody → TCode
  | .correlation .. => .indirectBranchWS
  | body => body.tcode

namespace CoreAnalytics

variable (c : CoreAnalytics)

theorem addBody_totals {body : MessageBody} (hknown : unknownBody body = false)
    (bits addr_bits : Counter) :
    (c.addBody body bits addr_bits).num_trace = Function.update c.num_trace body.tcode
    (c.num_trace body.tcode + 1) ∧
      (c.addBody body bits addr_bits).trace_bits_of =
        Function.update c.trace_bits_of body.credited (c.trace_bits_of body.credited + bits) ∧
      (c.addBody body bits addr_bits).num_trace_msgs = c.num_trace_msgs ∧
      (c.addBody body bits addr_bits).trace_bits = c.trace_bits := by
  cases body with
  | other => cases hknown
  | resourceFull r =>
    obtain ⟨hnum, hbits, hmsgs, htotal⟩ := sameTotals_addResourceFull { c with
      num_trace_resourcefull := c.num_trace_resourcefull + 1, trace_bits_resourcefull :=
        c.trace_bits_resourcefull + bits } r
    refine ⟨hnum.trans (funext fun t => ?_), hbits.trans (funext fun t => ?_), hmsgs, htotal⟩ <;>
      cases t <;> rfl
  | _ => refine ⟨funext fun t => ?_, funext fun t => ?_, rfl, rfl⟩ <;> cases t <;> rfl

theorem addTraceInfo_totals {m : TraceInfo} (hknown : unknownBody m.nm.body = false) :
    (c.addTraceInfo m).num_trace = Function.update c.num_trace m.nm.tcode
    (c.num_trace m.nm.tcode + 1) ∧
      (c.addTraceInfo m).trace_bits_of =
        Function.update c.trace_bits_of m.nm.body.credited
          (c.trace_bits_of m.nm.body.credited + m.bits) ∧
      (c.addTraceInfo m).num_trace_msgs = c.num_trace_msgs + 1 ∧
      (c.addTraceInfo m).trace_bits = c.trace_bits + m.bits := by
  obtain ⟨hnum, hbits, hmsgs, htotal⟩ :=
    (c.addMessage m.bits m.mseo_bits).sameTotals_addTimestamp m.ts_bits
  obtain ⟨hnum', hbits', hmsgs', htotal'⟩ :=
    ((c.addMessage m.bits m.mseo_bits).addTimestamp m.ts_bits).addBody_totals hknown
      m.bits m.addr_bits
  rw [hnum] at hnum'
  rw [hbits] at hbits'
  exact ⟨hnum', hbits', hmsgs'.trans hmsgs, htotal'.trans htotal⟩

end CoreAnalytics

/-! ### Runs -/

/-- The sum of `f` over the messages with `p`. -/
def sumOver (msgs : List TraceInfo) (p : TraceInfo → Bool) (f : TraceInfo → ℕ) : ℕ :=
  ((msgs.filter p).map f).sum

section
variable {msgs : List TraceInfo} {m : TraceInfo} {p : TraceInfo → Bool} {f : TraceInfo → ℕ}

theorem sumOver_cons : sumOver (m :: msgs) p f = (if p m then f m else 0) + sumOver msgs p f := by
  rw [sumOver, List.filter_cons]
  split_ifs
  · rfl
  · rw [Nat.zero_add, sumOver]

theorem sumOver_eq_zero_iff : sumOver msgs p f = 0 ↔ ∀ m ∈ msgs, p m → f m = 0 := by
  induction msgs with
  | nil => exact ⟨fun _ => List.forall_mem_nil _, fun _ => rfl⟩
  | cons m msgs ih =>
    rw [sumOver_cons, Nat.add_eq_zero_iff, ih, List.forall_mem_cons]
    refine and_congr_left' ?_
    split_ifs with h <;> simp [h]

theorem sumOver_congr {q : TraceInfo → Bool} (h : ∀ m ∈ msgs, (if p m then f m else 0) = if q m
      then f m else 0) :
    sumOver msgs p f = sumOver msgs q f := by
  induction msgs with
  | nil => rfl
  | cons m msgs ih =>
    obtain ⟨hm, hmsgs⟩ := List.forall_mem_cons.mp h
    rw [sumOver_cons, sumOver_cons, hm, ih hmsgs]

theorem sumOver_and_le (p q : TraceInfo → Bool) :
    sumOver msgs (fun m => p m && q m) f ≤ sumOver msgs p f := by
  induction msgs with
  | nil => exact Nat.le_refl _
  | cons m msgs ih =>
    rw [sumOver_cons, sumOver_cons]
    refine Nat.add_le_add ?_ ih
    by_cases hp : p m <;> by_cases hq : q m <;> simp [hp, hq]

/-- The sums over the messages of each type make up the sum over all messages. -/
theorem sum_sumOver (type : TraceInfo → TCode) (htypes : ∀ m ∈ msgs, type m ∈ tracedTypes) :
    ∑ t ∈ tracedTypes, sumOver msgs (fun m => p m && type m = t) f = sumOver msgs p f := by
  induction msgs with
  | nil => exact Finset.sum_const_zero
  | cons m msgs ih =>
    obtain ⟨hm, hmsgs⟩ := List.forall_mem_cons.mp htypes
    simp only [sumOver_cons, Finset.sum_add_distrib, ih hmsgs, Nat.add_right_cancel_iff]
    by_cases hp : p m
    · simp [hp, Finset.sum_ite_eq, hm]
    · simp [hp]

end

/-- A counter of the type of a message changes by the share of the message. -/
theorem update_add_apply (g : TCode → Counter) (t t' : TCode) (n : ℕ) :
    Function.update g t' (g t' + BitVec.ofNat 32 n) t = g t + BitVec.ofNat 32
      (if decide (t' = t) then n else 0) := by
  rw [Function.update_apply]
  by_cases h : t = t'
  · simp [h]
  · simp [h, Ne.symm h]

namespace Analytics

variable (a : Analytics)

def updateTraceInfos (msgs : List TraceInfo) : Analytics :=
  msgs.foldl (fun a m => a.updateTraceInfo m.nm m.bits m.mseo_bits m.ts_bits m.addr_bits) a

/-- A counter of a core that each message changes by its share is the sum of the
shares, modulo `2 ^ 32`. -/
theorem counter_updateTraceInfos (counter : CoreAnalytics → Counter) (p : TraceInfo → Bool)
    (f : TraceInfo → ℕ) (core : ℕ) (msgs : List TraceInfo)
    (hstep : ∀ m ∈ msgs, ∀ c : CoreAnalytics,
      counter (c.addTraceInfo m) = counter c + BitVec.ofNat 32 (if p m then f m else 0)) :
    counter ((a.updateTraceInfos msgs).core core) =
      counter (a.core core) + BitVec.ofNat 32
        (sumOver msgs (fun m => m.nm.core = core && p m) f) := by
  induction msgs generalizing a with
  | nil => exact (BitVec.add_zero _).symm
  | cons m msgs ih =>
    obtain ⟨hm, hmsgs⟩ := List.forall_mem_cons.mp hstep
    have hrun : a.updateTraceInfos (m :: msgs) =
      (a.updateTraceInfo m.nm m.bits m.mseo_bits m.ts_bits m.addr_bits).updateTraceInfos msgs := rfl
    rw [hrun, ih _ hmsgs, sumOver_cons, BitVec.ofNat_add, ← BitVec.add_assoc]
    congr 1
    by_cases hcore : m.nm.core = core
    · have hupdate : (a.updateTraceInfo m.nm m.bits m.mseo_bits m.ts_bits m.addr_bits).core core =
          (a.core core).addTraceInfo m := by
        subst hcore
        exact Function.update_self ..
      rw [hupdate, hm]
      simp [hcore]
    · have hsame : (a.updateTraceInfo m.nm m.bits m.mseo_bits m.ts_bits m.addr_bits).core core =
          a.core core :=
        Function.update_of_ne (Ne.symm hcore) ..
      rw [hsame]
      simp [hcore]

/-- The counters of all messages of a run are those of the cores there are. -/
theorem overrun_updateTraceInfos (msgs : List TraceInfo) :
    (a.updateTraceInfos msgs).overrun = false ↔
      a.overrun = false ∧ ∀ m ∈ msgs, m.nm.core < DQR_MAXCORES := by
  induction msgs generalizing a with
  | nil => simp [updateTraceInfos]
  | cons m msgs ih =>
    have hrun : a.updateTraceInfos (m :: msgs) =
      (a.updateTraceInfo m.nm m.bits m.mseo_bits m.ts_bits m.addr_bits).updateTraceInfos msgs := rfl
    have hstep : (a.updateTraceInfo m.nm m.bits m.mseo_bits m.ts_bits m.addr_bits).overrun =
      (a.overrun || decide (DQR_MAXCORES ≤ m.nm.core)) := rfl
    rw [hrun, ih, hstep, List.forall_mem_cons]
    simp [and_assoc]

end Analytics

/-- Nothing behind the counters of the cores has been written. Per core, the counters of each type
say how many messages of the type there were and of how many bits, and together they make up the
counters of all messages. -/
structure Analytics.Tallies (a : Analytics) (msgs : List TraceInfo) : Prop where
  inside : a.overrun = false
  num_trace : ∀ core, ∀ t ∈ tracedTypes,
    ((a.core core).num_trace t).toNat = sumOver msgs (fun m => m.nm.core = core && m.nm.tcode = t)
      fun _ => 1
  trace_bits : ∀ core, ∀ t ∈ tracedTypes,
    ((a.core core).trace_bits_of t).toNat = sumOver msgs (fun m => m.nm.core = core && m.nm.tcode =
      t) fun m => m.bits.toNat
  num_trace_msgs : ∀ core, ∑ t ∈ tracedTypes, ((a.core core).num_trace t).toNat =
    (a.core core).num_trace_msgs.toNat
  trace_bits_all : ∀ core, ∑ t ∈ tracedTypes, ((a.core core).trace_bits_of t).toNat =
    (a.core core).trace_bits.toNat

section
variable {msgs : List TraceInfo}

theorem tcode_mem_tracedTypes {body : MessageBody} (hknown : unknownBody body = false) :
    body.tcode ∈ tracedTypes := by
  cases body with
  | other => cases hknown
  | _ => simp only [MessageBody.tcode]; decide

theorem MessageBody.credited_eq {body : MessageBody} (hcode : body.tcode ≠ .correlation) :
    body.credited = body.tcode := by
  cases body with
  | correlation => exact absurd rfl hcode
  | _ => rfl

theorem MessageBody.credited_ne {body : MessageBody} (hknown : unknownBody body = false) :
    body.credited ≠ .correlation := by
  cases body with
  | other => cases hknown
  | _ => simp [MessageBody.credited, MessageBody.tcode]

namespace Analytics

/-- What the counters hold after a run from the constructor. -/
theorem updateTraceInfos_counters (hknown : ∀ m ∈ msgs, unknownBody m.nm.body = false) (core : ℕ) :
    let c := (updateTraceInfos {} msgs).core core
    (∀ t ∈ tracedTypes, c.num_trace t =
        BitVec.ofNat 32 (sumOver msgs (fun m => m.nm.core = core && m.nm.tcode = t) fun _ => 1)) ∧
      (∀ t ∈ tracedTypes, c.trace_bits_of t =
        BitVec.ofNat 32 (sumOver msgs (fun m => m.nm.core = core && m.nm.body.credited = t) fun m =>
          m.bits.toNat)) ∧
      c.num_trace_msgs = BitVec.ofNat 32 (sumOver msgs (fun m => m.nm.core = core) fun _ => 1) ∧
      c.trace_bits = BitVec.ofNat 32 (sumOver msgs (fun m => m.nm.core = core) fun m =>
        m.bits.toNat) := by
  have hstart : ∀ t, ({} : CoreAnalytics).num_trace t = 0 ∧ ({} : CoreAnalytics).trace_bits_of t =
      0 := by
    intro t
    cases t <;> exact ⟨rfl, rfl⟩
  have htotals := fun m hm c => CoreAnalytics.addTraceInfo_totals c (m := m) (hknown m hm)
  have hall : ∀ f, sumOver msgs (fun m => m.nm.core = core && true) f =
      sumOver msgs (fun m => m.nm.core = core) f := by
    intro f
    simp only [Bool.and_true]
  intro c
  refine ⟨fun t _ => ?_, fun t _ => ?_, ?_, ?_⟩
  · have hrun :=
      counter_updateTraceInfos {} (·.num_trace t) (fun m => m.nm.tcode = t) (fun _ => 1) core msgs
        fun m hm c => (congrFun (htotals m hm c).1 t).trans (update_add_apply _ _ _ 1)
    exact hrun.trans ((congrArg (· + _) (hstart t).1).trans (BitVec.zero_add _))
  · have hrun := counter_updateTraceInfos {} (·.trace_bits_of t) (fun m => m.nm.body.credited = t)
      (fun m => m.bits.toNat) core msgs fun m hm c => by
        rw [(htotals m hm c).2.1, ← update_add_apply, BitVec.ofNat_toNat, BitVec.setWidth_eq]
    exact hrun.trans ((congrArg (· + _) (hstart t).2).trans (BitVec.zero_add _))
  · have hrun :=
      counter_updateTraceInfos {} (·.num_trace_msgs) (fun _ => true) (fun _ => 1) core msgs
        fun m hm c => (htotals m hm c).2.2.1
    rw [hall] at hrun
    exact hrun.trans (BitVec.zero_add _)
  · have hrun :=
      counter_updateTraceInfos {} (·.trace_bits) (fun _ => true) (fun m => m.bits.toNat) core msgs
        fun m hm c => by
        rw [(htotals m hm c).2.2.2, if_pos rfl, BitVec.ofNat_toNat, BitVec.setWidth_eq]
    rw [hall] at hrun
    exact hrun.trans (BitVec.zero_add _)

/-- The counters agree with the trace exactly if all core ids are those of cores there are, no bits
of correlation messages are counted and no counter of a core wraps. -/
theorem updateTraceInfo_tallies_iff (msgs : List TraceInfo)
    (hknown : ∀ m ∈ msgs, unknownBody m.nm.body = false) :
    (updateTraceInfos {} msgs).Tallies msgs ↔ (∀ m ∈ msgs, m.nm.core < DQR_MAXCORES) ∧
      (∀ m ∈ msgs, m.nm.tcode = .correlation → m.bits = 0) ∧
      ∀ core, sumOver msgs (fun m => m.nm.core = core) (fun _ => 1) < 2 ^ 32 ∧
        sumOver msgs (fun m => m.nm.core = core) (fun m => m.bits.toNat) < 2 ^ 32 := by
  have hcounters := updateTraceInfos_counters hknown
  have htypes : ∀ m ∈ msgs, m.nm.tcode ∈ tracedTypes :=
    fun m hm => tcode_mem_tracedTypes (hknown m hm)
  have hinside : (updateTraceInfos {} msgs).overrun = false ↔ ∀ m ∈ msgs, m.nm.core <
      DQR_MAXCORES :=
    (overrun_updateTraceInfos {} msgs).trans (and_iff_right rfl)
  constructor
  · intro h
    refine ⟨hinside.mp h.inside, fun m hm hcode => ?_, fun core => ⟨?_, ?_⟩⟩
    · have hbits := h.trace_bits m.nm.core .correlation (by decide)
      have hnone : sumOver msgs (fun m' => m'.nm.core = m.nm.core && m'.nm.body.credited =
          .correlation) (fun m => m.bits.toNat) = 0 :=
        sumOver_eq_zero_iff.mpr fun m' hm' hp => by
          simp [MessageBody.credited_ne (hknown m' hm')] at hp
      rw [(hcounters m.nm.core).2.1 .correlation (by decide), hnone] at hbits
      have hzero := sumOver_eq_zero_iff.mp hbits.symm m hm (by simp [hcode])
      exact BitVec.eq_of_toNat_eq hzero
    · have hsum := h.num_trace_msgs core
      rw [Finset.sum_congr rfl (h.num_trace core), sum_sumOver _ htypes] at hsum
      rw [hsum]
      exact BitVec.isLt _
    · have hsum := h.trace_bits_all core
      rw [Finset.sum_congr rfl (h.trace_bits core), sum_sumOver _ htypes] at hsum
      rw [hsum]
      exact BitVec.isLt _
  · rintro ⟨hcores, hcorrelation, hsmall⟩
    have hcredited : ∀ core t, sumOver msgs (fun m => m.nm.core = core && m.nm.body.credited = t)
        (fun m => m.bits.toNat) = sumOver msgs (fun m => m.nm.core = core && m.nm.tcode = t)
          (fun m => m.bits.toNat) := by
      intro core t
      refine sumOver_congr fun m hm => ?_
      by_cases hcode : m.nm.tcode = .correlation
      · rw [hcorrelation m hm hcode]
        simp
      · rw [MessageBody.credited_eq hcode]
        rfl
    have hnum : ∀ core, ∀ t ∈ tracedTypes,
        (((updateTraceInfos {} msgs).core core).num_trace t).toNat =
          sumOver msgs (fun m => m.nm.core = core && m.nm.tcode = t) fun _ => 1 := by
      intro core t ht
      rw [(hcounters core).1 t ht, BitVec.toNat_ofNat]
      exact Nat.mod_eq_of_lt ((sumOver_and_le _ _).trans_lt (hsmall core).1)
    have hbits : ∀ core, ∀ t ∈ tracedTypes,
        (((updateTraceInfos {} msgs).core core).trace_bits_of t).toNat =
          sumOver msgs (fun m => m.nm.core = core && m.nm.tcode = t) fun m => m.bits.toNat := by
      intro core t ht
      rw [(hcounters core).2.1 t ht, hcredited, BitVec.toNat_ofNat]
      exact Nat.mod_eq_of_lt ((sumOver_and_le _ _).trans_lt (hsmall core).2)
    refine ⟨hinside.mpr hcores, hnum, hbits, fun core => ?_, fun core => ?_⟩
    · rw [Finset.sum_congr rfl (hnum core), sum_sumOver _ htypes, (hcounters core).2.2.1,
        BitVec.toNat_ofNat, Nat.mod_eq_of_lt (hsmall core).1]
    · rw [Finset.sum_congr rfl (hbits core), sum_sumOver _ htypes, (hcounters core).2.2.2,
        BitVec.toNat_ofNat, Nat.mod_eq_of_lt (hsmall core).2]

/-- A synchronisation of core 0, a branch with sync of core 1 and two branches of core 0. -/
def fourMessages : List TraceInfo :=
  [⟨{ NexusMessage.init with body := .sync 5 0 0x80000000 }, 48, 14, 0, 31⟩,
    ⟨{ NexusMessage.init with coreId := 1, body := .directBranchWS 3 2 0x80001000 }, 56, 16, 8, 31⟩,
    ⟨{ NexusMessage.init with body := .directBranch 7 }, 16, 4, 0, 0⟩,
    ⟨{ NexusMessage.init with body := .directBranch 40 }, 24, 6, 0, 0⟩]

theorem updateTraceInfo_tallies_sync : (updateTraceInfos {} fourMessages).Tallies fourMessages := by
  have hall : ∀ m ∈ fourMessages, unknownBody m.nm.body = false ∧ m.nm.core < DQR_MAXCORES ∧
      m.nm.tcode ≠ .correlation := by decide
  refine (updateTraceInfo_tallies_iff _ fun m hm => (hall m hm).1).mpr
    ⟨fun m hm => (hall m hm).2.1, fun m hm h => absurd h (hall m hm).2.2, fun core => ?_⟩
  have hle (f : TraceInfo → ℕ) : sumOver fourMessages (fun m => m.nm.core = core) f ≤
      sumOver fourMessages (fun _ => true) f := by
    simpa using sumOver_and_le (fun _ => true) fun m => decide (m.nm.core = core)
  exact ⟨(hle _).trans_lt (by decide), (hle _).trans_lt (by decide)⟩

/-- The bits of a correlation message are missing from its type. -/
theorem not_tallies_correlation : ¬ (updateTraceInfos {}
    [⟨{ NexusMessage.init with body := .correlation 4 0 5 0 }, 24, 6, 0, 0⟩]).Tallies
      [⟨{ NexusMessage.init with body := .correlation 4 0 5 0 }, 24, 6, 0, 0⟩] := by
  intro h
  have hbits := h.trace_bits 0 .correlation (by decide)
  exact absurd hbits (by decide)

end Analytics

end

end TraceDecoder
