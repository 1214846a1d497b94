import Mathlib.Data.List.Induction
import TraceDecoder.Count

/-!
# Branch histories

A list of branch outcomes, oldest first, as a history word: a stop bit with the outcomes below it,
the oldest the most significant. Loaded into a core's counts, it is consumed in order.
-/

namespace TraceDecoder

def historyNat (outcomes : List Bool) : ℕ := outcomes.foldl (fun h taken => 2 * h + taken.toNat) 1

def historyWord (outcomes : List Bool) : BitVec 64 := BitVec.ofNat 64 (historyNat outcomes)

theorem historyNat_concat (outcomes : List Bool) (taken : Bool) :
    historyNat (outcomes ++ [taken]) = 2 * historyNat outcomes + taken.toNat := by
  rw [historyNat, List.foldl_append]
  rfl

theorem testBit_historyNat (outcomes : List Bool) (i : ℕ) :
    (historyNat outcomes).testBit i
      = if i < outcomes.length then outcomes.reverse.getD i false else decide
        (i = outcomes.length) := by
  induction outcomes using List.reverseRecOn generalizing i with
  | nil => cases i <;> simp [historyNat, Nat.testBit_succ]
  | append_singleton outcomes taken ih =>
    rw [historyNat_concat, List.length_append, List.length_singleton, List.reverse_append]
    cases i with
    | zero => cases taken <;> simp [Nat.testBit_zero]
    | succ i =>
      have hdiv : (2 * historyNat outcomes + taken.toNat) / 2 = historyNat outcomes := by
        have hle := taken.toNat_le
        omega
      rw [Nat.testBit_succ, hdiv, ih]
      simp only [Nat.add_lt_add_iff_right, Nat.add_right_cancel_iff, List.reverse_singleton,
        List.singleton_append, List.getD_cons_succ]

theorem getLsbD_historyWord (outcomes : List Bool) {i : ℕ} (hi : i < 64) :
    (historyWord outcomes).getLsbD i
      = if i < outcomes.length then outcomes.reverse.getD i false else decide
        (i = outcomes.length) := by
  rw [historyWord, BitVec.getLsbD_ofNat, testBit_historyNat]
  simp only [hi, decide_true, Bool.true_and]

namespace Count

variable {c c' : Count} {outcomes : List Bool} {taken : Bool}

theorem belowStopBit_eq {hist : BitVec 64} {stop n : ℕ} (hstop : hist.getLsbD stop = true)
    (habove : ∀ i, stop < i → i < n → hist.getLsbD i = false) (hn : stop < n) :
    belowStopBit hist n = (stop : ℤ) - 1 := by
  induction n with
  | zero => exact absurd hn (Nat.not_lt_zero stop)
  | succ n ih =>
    by_cases heq : n = stop
    · rw [belowStopBit, heq, if_pos hstop]
    · rw [belowStopBit, habove n (by omega) (by omega), if_neg Bool.false_ne_true]
      exact ih (fun i hi hin => habove i hi (by omega)) (by omega)

/-- No more than 31 outcomes are pending, as history bits only; `isTaken` tests them with a 32-bit
mask, which is why more do not fit. -/
structure HoldsHistory (c : Count) (outcomes : List Bool) : Prop where
  histBit : c.histBit = (outcomes.length : ℤ) - 1
  bits : ∀ i < outcomes.length, c.history.getLsbD i = outcomes.reverse.getD i false
  length : outcomes.length ≤ 31
  takenCount : c.takenCount = 0
  notTakenCount : c.notTakenCount = 0

theorem HoldsHistory.congr (h : c.HoldsHistory outcomes) (hbit : c'.histBit = c.histBit)
    (hist : c'.history = c.history) (htaken : c'.takenCount = c.takenCount)
    (hnotTaken : c'.notTakenCount = c.notTakenCount) : c'.HoldsHistory outcomes where
  histBit := hbit.trans h.histBit
  bits i hi := by rw [hist, h.bits i hi]
  length := h.length
  takenCount := htaken.trans h.takenCount
  notTakenCount := hnotTaken.trans h.notTakenCount

theorem HoldsHistory.countType (h : c.HoldsHistory (taken :: outcomes)) :
    c.getCurrentCountType = .history := by
  have hbit := h.histBit
  rw [List.length_cons] at hbit
  rw [getCurrentCountType, if_pos (by omega)]

theorem pending_eq_false_iff : c.pending = false ↔ c.histBit < 0 ∧ c.takenCount = 0 ∧
    c.notTakenCount = 0 := by
  rw [pending, decide_eq_false_iff_not]
  omega

theorem setHistory_holds (hpending : c.pending = false) (hlen : outcomes.length ≤ 31) :
    ∃ c', c.setHistory (historyWord outcomes) = (.ok, c') ∧ c'.HoldsHistory outcomes ∧
      c'.i_cnt = c.i_cnt ∧ c'.stack = c.stack := by
  have hbits := fun i hi => getLsbD_historyWord outcomes (i := i) hi
  have hstop : belowStopBit (historyWord outcomes) 64 = (outcomes.length : ℤ) - 1 := by
    refine belowStopBit_eq ?_ (fun i hi h64 => ?_) (by omega)
    · rw [hbits _ (by omega), if_neg (lt_irrefl _), decide_eq_true rfl]
    · rw [hbits i h64, if_neg (by omega), decide_eq_false (by omega)]
  obtain ⟨-, htaken, hnotTaken⟩ := pending_eq_false_iff.mp hpending
  refine ⟨{ c with history := historyWord outcomes, histBit := belowStopBit (historyWord outcomes) 64 },
    ?_, ⟨hstop, fun i hi => ?_, hlen, htaken, hnotTaken⟩, rfl, rfl⟩
  · rw [setHistory, hpending]
    rfl
  · rw [hbits i (by omega), if_pos hi]

theorem isTaken_of_mask {n m : ℕ} (hbit : c.histBit = n) (hm : m < 64)
    (hmask : (intBit n).signExtend 64 = BitVec.twoPow 64 m) : c.isTaken = c.history.getLsbD m := by
  rw [isTaken, hbit, Int.toNat_natCast, hmask, BitVec.and_twoPow]
  cases c.history.getLsbD m with
  | false => simp
  | true =>
    have hne : BitVec.twoPow 64 m ≠ 0 := by
      intro h
      have hbit := congrArg (BitVec.getLsbD · m) h
      simp [hm] at hbit
    simpa using hne

/-- Below bit 31 the `int` mask has just the one bit. -/
theorem isTaken_eq {n : ℕ} (hbit : c.histBit = n) (hn : n < 31) :
    c.isTaken = c.history.getLsbD n := by
  have hmask : ∀ n < 31, (intBit n).signExtend 64 = BitVec.twoPow 64 n := by decide
  exact isTaken_of_mask hbit (by omega) (hmask n hn)

theorem HoldsHistory.consume (h : c.HoldsHistory (taken :: outcomes)) :
    ∃ c', c.consumeHistory = some (taken, c') ∧ c'.HoldsHistory outcomes ∧ c'.i_cnt = c.i_cnt ∧
      c'.stack = c.stack := by
  have hbit : c.histBit = outcomes.length := by
    rw [h.histBit, List.length_cons]
    omega
  have hlen := h.length
  rw [List.length_cons] at hlen
  have htaken : c.isTaken = taken := by
    rw [isTaken_eq hbit (by omega), h.bits _ (by rw [List.length_cons]; omega), List.reverse_cons,
      List.getD_append_right _ _ _ _ (by rw [List.length_reverse]), List.length_reverse,
        Nat.sub_self]
    rfl
  refine ⟨{ c with histBit := c.histBit - 1 }, ?_, ⟨?_, fun i hi => ?_, by omega, h.takenCount,
    h.notTakenCount⟩, rfl, rfl⟩
  · rw [consumeHistory, if_neg (by omega), htaken]
  · change c.histBit - 1 = _
    rw [hbit]
  · change c.history.getLsbD i = _
    rw [h.bits i (by rw [List.length_cons]; omega), List.reverse_cons,
      List.getD_append _ _ _ _ (by rwa [List.length_reverse])]

end Count

end TraceDecoder
