import TraceDecoder.CATrace
import TraceDecoder.Lib.NextPosition

/-!
# The records of a cycle-accurate trace

A file of whole records is loaded record by record up to its end. Its words hold 30 bits of trace
each, and the first bit of all is taken to be set.
-/

namespace TraceDecoder.CATrace

variable (b : List Byte)

/-- The trace bits of word `w` of the file. -/
def fileWord (w : ℕ) : BitVec 32 :=
  if w = 0 then (word b 0 &&& 0x3fffffff#32) ||| 1#32 <<< 29 else word b (4 * w) &&& 0x3fffffff#32

/-- Record `R` of a file of `k` records is loaded. -/
structure Loaded (k R : ℕ) (s : CATrace) : Prop where
  status : s.status = .ok
  caBuffer : s.caBuffer = b
  length : b.length = 128 * k
  caBufferIndex : s.caBufferIndex = 128 * (R + 1)
  blockRecNum : s.blockRecNum = R
  last : R < k
  data : ∀ j < 32, s.catr.data j = fileWord b (32 * R + j)

structure SameQueue (s s' : CATrace) : Prop where
  caType : s'.caType = s.caType
  traceQSize : s'.traceQSize = s.traceQSize
  traceQOut : s'.traceQOut = s.traceQOut
  traceQIn : s'.traceQIn = s.traceQIn
  caTraceQ : s'.caTraceQ = s.caTraceQ

theorem SameQueue.trans {s s' s'' : CATrace} (h : SameQueue s s') (h' : SameQueue s' s'') :
    SameQueue s s'' :=
  ⟨h'.caType.trans h.caType, h'.traceQSize.trans h.traceQSize, h'.traceQOut.trans h.traceQOut,
    h'.traceQIn.trans h.traceQIn, h'.caTraceQ.trans h.caTraceQ⟩

variable {b}

theorem recordData_eq (R : ℕ) {j : ℕ} (hj : j < 32) :
    recordData b (decide (R = 0)) (word b (128 * R)) (128 * R + 4) j = fileWord b (32 * R + j) := by
  rw [recordData, fileWord]
  by_cases h0 : j = 0
  · subst h0
    rw [if_pos rfl]
    by_cases hR : R = 0
    · subst hR
      rfl
    · rw [if_neg (by simpa using hR), if_neg (by omega), show 4 * (32 * R + 0) = 128 * R by omega]
  · rw [if_neg h0, if_neg (by omega), show 128 * R + 4 + 4 * (j - 1) = 4 * (32 * R + j) by omega]

theorem parseNextCATraceRec_eq {k R : ℕ} {s : CATrace} (hstatus : s.status = .ok)
    (hbuffer : s.caBuffer = b)
    (hlength : b.length = 128 * k) (hindex : s.caBufferIndex = 128 * R)
    (hnum : R ≠ 0 → s.blockRecNum + 1 = R) (hR : R < k) :
    ∃ s', parseNextCATraceRec s = .ok () s' ∧ Loaded b k R s' ∧ SameQueue s s' ∧
      s'.catr.offset = 0 := by
  have hfirst : ¬ b.length < 128 * R + 4 := by omega
  have hroom : ¬ b.length < 128 * R + 4 + 4 * 31 := by omega
  have hword : (if decide (R = 0) = true then findStart b b.length 0 0
      else (true, word b (128 * R), 128 * R + 4)) = (true, word b (128 * R), 128 * R + 4) := by
    by_cases h0 : R = 0
    · subst h0
      have hroom' : ¬ b.length < 0 + 4 + 4 := by omega
      obtain ⟨n, hn⟩ : ∃ n, b.length = n + 1 := ⟨b.length - 1, by omega⟩
      rw [if_pos (by decide), hn, findStart, if_neg hroom', if_neg (fun h => h.2 (by decide))]
    · rw [if_neg (by simpa using h0)]
  have hdecide : decide (128 * R = 0) = decide (R = 0) := by
    rw [decide_eq_decide]
    omega
  refine ⟨{ s with
      caBufferIndex := 128 * R + 4 + 4 * 31
      blockRecNum := if decide (R = 0) then 0 else s.blockRecNum + 1
      catr := ⟨0, address b (128 * R + 4), recordData b (decide (R = 0)) (word b (128 * R))
        (128 * R + 4)⟩ },
    ?_, ⟨hstatus, hbuffer, hlength, ?_, ?_, hR, fun j hj => recordData_eq R hj⟩,
      ⟨rfl, rfl, rfl, rfl, rfl⟩, rfl⟩
  · rw [parseNextCATraceRec, if_neg (by simp [hstatus]), hbuffer, hindex, if_neg hfirst]
    simp only [hdecide, hword]
    rw [if_neg hroom]
  · show 128 * R + 4 + 4 * 31 = 128 * (R + 1)
    omega
  · show (if decide (R = 0) = true then 0 else s.blockRecNum + 1) = R
    by_cases h0 : R = 0
    · rw [if_pos (by simpa using h0), h0]
    · rw [if_neg (by simpa using h0), hnum h0]

theorem parseNextCATraceRec_eof {s : CATrace} (hstatus : s.status = .ok)
    (hend : s.caBuffer.length ≤ s.caBufferIndex) :
    ∃ s', parseNextCATraceRec s = .error .eof s' :=
  ⟨_, by rw [parseNextCATraceRec, if_neg (by simp [hstatus]), if_pos (by omega)]⟩

section
variable {α : Type} {consume : CATraceRec → Option α × CATraceRec} {N k : ℕ} {f : ℕ → Bool}
    {out : ℕ → ℕ → α}

/-- A function that consumes from the record finds the next of the record's `N`
positions that is in `f`. -/
def FindsNext (b : List Byte) (consume : CATraceRec → Option α × CATraceRec) (N k : ℕ)
    (f : ℕ → Bool) (out : ℕ → ℕ → α) : Prop :=
  ∀ {R s}, Loaded b k R s → s.catr.offset ≤ N →
    (nextPosition f (N * R + s.catr.offset) (N * (R + 1)) = none ∧ (consume s.catr).1 = none) ∨
      ∃ p < N, nextPosition f (N * R + s.catr.offset) (N * (R + 1)) = some (N * R + p) ∧
        consume s.catr = (some (out R p), { s.catr with offset := p + 1 })

/-- Then the loop around it finds the next position of the file. -/
theorem untilConsumed_next (hfinds : FindsNext b consume N k f out) {R fuel : ℕ} {s : CATrace}
    (h : Loaded b k R s) (hoffset : s.catr.offset ≤ N) (hfuel : k ≤ R + fuel) :
    (nextPosition f (N * R + s.catr.offset) (N * k) = none ∧ ∃ s', untilConsumed consume fuel s =
      .error .eof s') ∨
      ∃ p R' s', p < N ∧ nextPosition f (N * R + s.catr.offset) (N * k) = some (N * R' + p) ∧
        Loaded b k R' s' ∧ SameQueue s s' ∧
        s'.catr.offset = p + 1 ∧ untilConsumed consume fuel s = .ok (out R' p) s' := by
  have hlast := h.last
  induction fuel generalizing R s with
  | zero => omega
  | succ fuel ih =>
    have hmul : N * (R + 1) ≤ N * k := Nat.mul_le_mul_left N hlast
    have hstep : N * (R + 1) = N * R + N := Nat.mul_succ N R
    rw [nextPosition_append (m := N * (R + 1)) (by omega) hmul, untilConsumed]
    rcases hfinds h hoffset with ⟨hnone, heq⟩ | ⟨p, hp, hsome, heq⟩
    · rw [hnone, Option.none_or]
      cases hconsume : consume s.catr with
      | mk found r =>
        rw [hconsume] at heq
        obtain rfl : found = none := heq
        simp only [hconsume]
        by_cases hend : R + 1 = k
        · refine .inl ⟨nextPosition_of_le (by rw [hend]), ?_⟩
          have hindex := h.caBufferIndex
          have hlength := h.length
          have hindex' : s.caBuffer.length ≤ s.caBufferIndex := by
            rw [h.caBuffer]
            omega
          obtain ⟨s', hs'⟩ := parseNextCATraceRec_eof (s := { s with catr := r }) h.status hindex'
          rw [hs']
          exact ⟨_, rfl⟩
        · obtain ⟨s', hs', hloaded, hsame, hzero⟩ :=
            parseNextCATraceRec_eq (s := { s with catr := r }) (R := R + 1) h.status h.caBuffer
              h.length h.caBufferIndex (fun _ => congrArg (· + 1) h.blockRecNum) (by omega)
          rw [hs']
          have hplace : N * (R + 1) = N * (R + 1) + s'.catr.offset := by omega
          rw [hplace]
          rcases ih hloaded (by omega) (by omega) (by omega) with hnone' | ⟨p, R', s'', hp, hsome,
            hloaded', hsame', hrest⟩
          · exact .inl hnone'
          · exact .inr ⟨p, R', s'', hp, hsome, hloaded', SameQueue.trans ⟨hsame.1, hsame.2, hsame.3,
              hsame.4, hsame.5⟩ hsame', hrest⟩
    · rw [hsome, Option.some_or]
      simp only [heq]
      exact .inr ⟨p, R, { s with catr := { s.catr with offset := p + 1 } }, hp, rfl,
        ⟨h.status, h.caBuffer, h.length, h.caBufferIndex, h.blockRecNum, h.last, h.data⟩,
          ⟨rfl, rfl, rfl, rfl, rfl⟩, rfl, rfl⟩

end

end TraceDecoder.CATrace
