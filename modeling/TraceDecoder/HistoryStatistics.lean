import Mathlib.Order.Bounds.Basic
import TraceDecoder.Lib.SetBits
import TraceDecoder.TraceTotals

/-!
# The statistics of the histories

Three cases of `updateTraceInfo` count the branches of a history word. The loop leaves the stop bit
out and the count of the taken branches starts at -1 to leave it out too, so that each message takes
one taken branch too few into account. The minimum starts at 0, and nothing is below it.
-/

namespace TraceDecoder

open StopBit

/-- The history that `updateTraceInfo` looks at. -/
def MessageBody.countedHistory : MessageBody → Option (BitVec 64)
  | .indirectHistory _ _ _ h | .indirectHistoryWS _ _ _ _ h | .resourceFull (.history h) => some h
  | _ => none

def histories (core : ℕ) (msgs : List TraceInfo) : List (BitVec 64) :=
  (msgs.filter (·.nm.core = core)).filterMap (·.nm.body.countedHistory)

/-! ### One history -/

theorem scanHistory_eq (fuel : ℕ) (mask : BitVec 64) (s : HistoryScan) (hfuel : place mask ≤ fuel) :
    scanHistory fuel mask s =
      ⟨s.msb + (place mask : ℕ), s.taken + (below mask).count true, s.nottaken + (below mask).count
          false⟩ := by
  induction fuel generalizing mask s with
  | zero =>
    have hnil : below mask = [] := List.eq_nil_of_length_eq_zero (by rw [length_below]; omega)
    rw [scanHistory, ← length_below, hnil]
    simp
  | succ fuel ih =>
    rw [scanHistory]
    by_cases hlt : 1 < mask.toNat
    · have hbelow := below_shift hlt
      have hplace : place mask = place (mask >>> 1) + 1 := by
        have hlength := congrArg List.length hbelow
        rwa [length_below, List.length_append, length_below] at hlength
      rw [if_pos hlt, ih _ _ (by omega), hbelow, hplace, List.count_append, List.count_append]
      cases mask.getLsbD 0 with
      | true => simp [Int.add_assoc, Int.add_comm 1]
      | false => simp [Int.add_assoc, Int.add_comm 1]
    · rw [if_neg hlt, ← length_below, below_eq_nil (by omega)]
      simp

theorem historyBits_eq (h : BitVec 64) :
    historyBits h = ⟨(place h : ℤ) - 1, ((below h).count true : ℤ) - 1, (below h).count false⟩ := by
  have hle : place h ≤ 64 := (place_lt_width (by decide)).le
  rw [historyBits, scanHistory_eq 64 h _ hle, Int.zero_add, Int.add_comm, Int.add_comm (-1)]
  rfl

/-! ### The counters of a core -/

structure HistoryCounters where
  (taken nottaken max min : Counter)
  deriving DecidableEq, Repr

namespace HistoryCounters

variable (c : HistoryCounters)

def add (h : BitVec 64) : HistoryCounters where
  taken := c.taken + BitVec.ofInt 32 (((below h).count true : ℤ) - 1)
  nottaken := c.nottaken + BitVec.ofNat 32 ((below h).count false)
  max := if 0 ≤ (place h : ℤ) - 1 ∧ c.max.toInt ≤ (place h : ℤ) - 1 then BitVec.ofNat 32 (place h)
    else c.max
  min := if (place h : ℤ) < c.min.toInt then BitVec.ofNat 32 (place h) else c.min

end HistoryCounters

namespace CoreAnalytics

variable (c : CoreAnalytics)

def historyCounters : HistoryCounters :=
  ⟨c.num_trace_ihistory_taken_branches, c.num_trace_ihistory_nottaken_branches, c.max_hist_bits,
    c.min_hist_bits⟩

theorem historyCounters_addHistory (h : BitVec 64) :
    (c.addHistory (historyBits h)).historyCounters = c.historyCounters.add h := by
  have hplace : (place h : ℤ) - 1 + 1 = place h := Int.sub_add_cancel _ _
  simp only [addHistory, historyBits_eq, historyCounters, HistoryCounters.add, hplace,
    BitVec.ofInt_natCast]
  rfl

theorem historyCounters_addTraceInfo (m : TraceInfo) :
    (c.addTraceInfo m).historyCounters =
      m.nm.body.countedHistory.elim c.historyCounters c.historyCounters.add := by
  have hbefore : ((c.addMessage m.bits m.mseo_bits).addTimestamp m.ts_bits).historyCounters =
      c.historyCounters := by
    unfold addTimestamp
    split_ifs <;> rfl
  rw [addTraceInfo, ← hbefore]
  generalize (c.addMessage m.bits m.mseo_bits).addTimestamp m.ts_bits = d
  cases m.nm.body with
  | indirectHistory _ _ _ h => exact historyCounters_addHistory _ h
  | indirectHistoryWS _ _ _ _ h => exact historyCounters_addHistory _ h
  | resourceFull r =>
    cases r with
    | history h => exact historyCounters_addHistory _ h
    | _ => rfl
  | _ => rfl

end CoreAnalytics

/-! ### Runs -/

namespace Analytics

variable (a : Analytics)

theorem updateTraceInfos_append (msgs msgs' : List TraceInfo) :
    a.updateTraceInfos (msgs ++ msgs') = (a.updateTraceInfos msgs).updateTraceInfos msgs' :=
  List.foldl_append

end Analytics

/-- The counters say of each history message what its history says: the last message
has been counted right, and the least and the greatest length of the histories of
its core so far are known. -/
structure Analytics.CountsHistories (msgs : List TraceInfo) (m : TraceInfo) (h : BitVec 64) :
    Prop where
  taken : ((updateTraceInfos {} (msgs ++ [m])).core m.nm.core).num_trace_ihistory_taken_branches =
    ((updateTraceInfos {} msgs).core m.nm.core).num_trace_ihistory_taken_branches + BitVec.ofNat 32
      ((below h).count true)
  nottaken : ((updateTraceInfos {} (msgs ++ [m])).core
    m.nm.core).num_trace_ihistory_nottaken_branches =
      ((updateTraceInfos {} msgs).core m.nm.core).num_trace_ihistory_nottaken_branches +
      BitVec.ofNat 32 ((below h).count false)
  min_hist_bits : IsLeast {n | ∃ h ∈ histories m.nm.core (msgs ++ [m]), place h = n}
    ((updateTraceInfos {} (msgs ++ [m])).core m.nm.core).min_hist_bits.toNat
  max_hist_bits : IsGreatest {n | ∃ h ∈ histories m.nm.core (msgs ++ [m]), place h = n}
    ((updateTraceInfos {} (msgs ++ [m])).core m.nm.core).max_hist_bits.toNat

namespace Analytics

/-- **The stop bit is discounted twice**: no history message is counted right,
whatever has come before. -/
theorem not_countsHistories (msgs : List TraceInfo) (m : TraceInfo) (h : BitVec 64)
    (hhistory : m.nm.body.countedHistory = some h) : ¬ CountsHistories msgs m h := by
  intro hcounts
  have hstep := congrArg HistoryCounters.taken (CoreAnalytics.historyCounters_addTraceInfo
    ((updateTraceInfos {} msgs).core m.nm.core) m)
  have hafter : (updateTraceInfos {} (msgs ++ [m])).core m.nm.core =
      ((updateTraceInfos {} msgs).core m.nm.core).addTraceInfo m := by
    rw [updateTraceInfos_append]
    exact Function.update_self ..
  rw [hhistory] at hstep
  have htaken := hcounts.taken
  rw [hafter] at htaken
  have heq := (BitVec.add_right_inj _).mp (htaken.symm.trans hstep)
  rw [Int.sub_eq_add_neg, BitVec.ofInt_add, BitVec.ofInt_natCast] at heq
  have hzero := (BitVec.add_right_inj _).mp ((BitVec.add_zero _).trans heq)
  exact absurd hzero (by decide)

/-- A first message with one taken branch. -/
theorem not_countsHistories_first : ¬ CountsHistories []
    ⟨{ NexusMessage.init with body := .indirectHistory 0 4 0x10 0b11 }, 48, 14, 0, 31⟩ 0b11 :=
  not_countsHistories [] _ 0b11 rfl

theorem not_countsHistories_taken : ¬ ∀ (msgs : List TraceInfo) (m : TraceInfo) (h : BitVec 64),
    m.nm.body.countedHistory = some h → 0 < h.toNat → CountsHistories msgs m h := by
  intro hall
  have hcounts := hall [] ⟨{ NexusMessage.init with body := .indirectHistory 0 4 0x10 0b11 }, 48,
    14, 0, 31⟩ 0b11 rfl (by decide)
  exact absurd hcounts.taken (by decide)

end Analytics

end TraceDecoder
