import TraceDecoder.CallReturns
import TraceDecoder.Lib.Ranking
import TraceDecoder.StepEffects

/-!
# Calls get on

A call that returns uses up bytes of the file, a message, or half-words of the instruction count.
The calls that do not are those that run an instruction although the count is used up, because
branch outcomes are pending, and those that run a branch that no message decides.
-/

namespace TraceDecoder

open EStateM SliceFileParser

variable {E : Env}

/-- The next call runs an instruction that uses up nothing that is left. -/
structure Trace.Stalls (t : Trace E) : Prop where
  readNew : t.readNewTraceMessage = false
  state : t.here.state = .getNextInstruction
  usesUp : ∃ s, TraceM.nextStep t.toDecoder = .ok s ∧
    (s.brFlag = .unknown ∨ t.here.counts.i_cnt ≤ 0)

/-- What a call may use up: bytes, the message at work, the states in front of its instructions, and
half-words. -/
def Trace.rank (t : Trace E) : ℕ ×ₗ ℕ ×ₗ ℕ ×ₗ ℕ :=
  toLex (t.sfp.tf.length, toLex (if t.readNewTraceMessage then 0 else 1,
    toLex (if t.here.state = .getNextInstruction then 0 else 1, t.here.counts.i_cnt.toNat)))

namespace TraceM

variable {want : Want} {locals : Locals} {rc : DQErr} {t t' : Trace E}

theorem Ended.rank (h : Ended t .ok t') (hread : t.readNewTraceMessage = false) :
    t'.rank < t.rank ∨ t'.rank = t.rank ∧ t.Stalls ∧ t'.sfp = t.sfp := by
  rcases h.left rfl with hheld | ⟨-, hheld, hstate, hsame⟩
  · have hbytes : t'.sfp.tf.length = t.sfp.tf.length := by rw [hheld.sfp]
    refine .inl (rank_lt_of_snd hbytes (rank_lt_of_fst ?_))
    simp [hheld.readNew, hread]
  · have hbytes : t'.sfp.tf.length = t.sfp.tf.length := by rw [hheld.sfp]
    by_cases hinst : t.here.state = .getNextInstruction
    · obtain ⟨s, hs, hcounts⟩ := hsame hinst
      have hi := nextAddr_i_cnt hs
      by_cases hleft : s.brFlag ≠ .unknown ∧ 0 < t.here.counts.i_cnt
      · refine .inl (rank_lt_of_snd hbytes (rank_lt_of_snd ?_ (rank_lt_of_snd ?_ ?_)))
        · rw [hheld.readNew, hread]
        · rw [hstate, hinst]
        · rw [hcounts]
          have hlt : s.count.i_cnt < t.here.counts.i_cnt := (hi.resolve_left fun h => hleft.1 h.1).2
          omega
      · refine .inr ⟨?_, ⟨hread, hinst, s, hs, ?_⟩, hheld.sfp⟩
        · have htoNat : t'.here.counts.i_cnt.toNat = t.here.counts.i_cnt.toNat := by
            rw [hcounts]
            by_cases hunknown : s.brFlag = .unknown
            · rw [(hi.resolve_right fun h => h.1 hunknown).2]
            · have hlt : s.count.i_cnt < t.here.counts.i_cnt :=
                (hi.resolve_left fun h => hunknown h.1).2
              have hnone : t.here.counts.i_cnt ≤ 0 := not_lt.mp fun hpos => hleft ⟨hunknown, hpos⟩
              omega
          rw [Trace.rank, Trace.rank, hbytes, hheld.readNew, hread, hstate, hinst, htoNat]
        · by_cases hunknown : s.brFlag = .unknown
          · exact .inl hunknown
          · exact .inr (not_lt.mp fun hpos => hleft ⟨hunknown, hpos⟩)
    · refine .inl (rank_lt_of_snd hbytes (rank_lt_of_snd ?_ (rank_lt_of_fst ?_)))
      · rw [hheld.readNew, hread]
      · simp [hstate, hinst]

end TraceM

theorem Trace.Returns.eq {want : Want} {locals : Locals} {t t₁ t₂ : Trace E} {rc₁ rc₂ : DQErr}
    (h : t.Returns want locals rc₁ t₁) {n : ℕ}
    (hrun : ∀ fuel, n ≤ fuel → t.NextInstruction fuel want locals = some (rc₂, t₂)) :
    rc₁ = rc₂ ∧ t₁ = t₂ := by
  obtain ⟨m, hm⟩ := h
  have heq := (hm (max m n) (le_max_left m n)).symm.trans (hrun (max m n) (le_max_right m n))
  simpa using heq

/-- **A call** that returns well lowers the rank, unless it stalls. -/
theorem Trace.Returns.rank {want : Want} {locals : Locals} {t t' : Trace E}
    (h : t.Returns want locals .ok t') :
    t'.rank < t.rank ∨ t'.rank = t.rank ∧ t.Stalls ∧ t'.sfp = t.sfp := by
  by_cases hok : t.status = .ok
  · cases hread : t.readNewTraceMessage with
    | false =>
      obtain ⟨rc, t₁, hloop, hended⟩ := TraceM.loop_ends want locals (t := t.start) hread
      obtain ⟨rfl, rfl⟩ :=
        h.eq fun fuel hfuel => NextInstruction_of_loop hok (hloop fuel fuel hfuel)
      rcases hended.rank hread with hlt | ⟨heq, hstalls, hsfp⟩
      · exact .inl hlt
      · exact .inr ⟨heq, ⟨hstalls.readNew, hstalls.state, hstalls.usesUp⟩, hsfp⟩
    | true =>
      have hjams : ¬ t.Jams := (NextInstruction_returns_iff want locals t).mp ⟨_, _, h⟩
      have hends : TraceM.Ends TraceM.readMessages t.start :=
        TraceM.readMessages_ends _ fun hj => hjams ⟨hok, hj.1, hread, hj.2⟩
      obtain ⟨rc, t₁, n, hloop, hleft⟩ :=
        TraceM.loop_reads_ends want locals (t := t.start) hread hends
      obtain ⟨rfl, rfl⟩ := h.eq (n := n + 4) fun fuel hfuel => NextInstruction_of_loop hok
        (hloop fuel fuel (by omega) (by omega))
      obtain ⟨t₂, -, hbytes, hended⟩ := hleft rfl
      have hsfp : t'.sfp = t₂.sfp := by
        rcases hended.left rfl with hheld | ⟨-, hheld, -⟩
        · exact hheld.sfp
        · exact hheld.sfp
      exact .inl (rank_lt_of_fst (hsfp ▸ hbytes))
  · have hstatus := h.eq (n := 0) fun fuel _ => by rw [Trace.NextInstruction, if_pos hok]
    exact absurd hstatus.1.symm hok

/-- In a run of calls there is one that does not return well, or from some call on all of them stall
and leave the file as it is. -/
theorem calls_settle (t : ℕ → Trace E) (want : ℕ → Want) (locals : ℕ → Locals) :
    (∃ n, ¬ (t n).Returns (want n) (locals n) .ok (t (n + 1))) ∨ ∃ N, ∀ n, N ≤ n → (t n).Stalls ∧
    (t n).sfp = (t N).sfp := by
  by_cases hreturns : ∃ n, ¬ (t n).Returns (want n) (locals n) .ok (t (n + 1))
  · exact .inl hreturns
  · have hrank (n : ℕ) : (t (n + 1)).rank < (t n).rank ∨
        (t (n + 1)).rank = (t n).rank ∧ (t n).Stalls ∧ (t (n + 1)).sfp = (t n).sfp :=
      (not_not.mp fun h => hreturns ⟨n, h⟩ : (t n).Returns _ _ _ _).rank
    obtain ⟨N, hN⟩ := settles (fun n => (t n).rank) hrank
    refine .inr ⟨N, fun n hn => ⟨(hN n hn).2.1, ?_⟩⟩
    induction n, hn using Nat.le_induction with
    | base => rfl
    | succ n hn ih => exact (hN n hn).2.2.trans ih

end TraceDecoder
