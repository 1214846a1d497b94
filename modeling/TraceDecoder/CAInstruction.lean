import TraceDecoder.CARecords

/-!
# Replaying a cycle-accurate instruction trace

The bits of a trace form one stream, 30 bits a word from the top down, and a cycle takes two of
them. Until the end of the file the calls report the set bits in order, with cycles that are kept in
32 bits.
-/

namespace TraceDecoder

namespace CATraceRec

variable (data : ℕ → BitVec 32)

theorem scanWord_eq (bit : ℕ → Bool) (word : BitVec 32) (bits offset : ℕ)
    (hbit : ∀ j < bits, word.getLsbD (bits - 1 - j) = bit (offset + j)) :
    (nextPosition bit offset (offset + bits) = none ∧ scanWord word bits offset =
      (none, offset + bits)) ∨
      ∃ p, nextPosition bit offset (offset + bits) = some p ∧
        scanWord word bits offset = (some (bits - 1 - (p - offset)), p) := by
  induction bits generalizing offset with
  | zero => exact .inl ⟨nextPosition_of_le (Nat.le_refl _), rfl⟩
  | succ bits ih =>
    have hfirst : word.getLsbD bits = bit offset := hbit 0 (Nat.succ_pos _)
    rw [scanWord, hfirst]
    cases h : bit offset with
    | true =>
      refine .inr ⟨offset, nextPosition_eq_some_iff.mpr ⟨Nat.le_refl _, by omega, h,
        fun q hq hqp => by omega⟩, ?_⟩
      rw [Nat.sub_self, if_pos rfl]
      rfl
    | false =>
      have hskip : nextPosition bit offset (offset + 1) = none :=
          nextPosition_eq_none_iff.mpr fun q hq hqe => by
        rw [show q = offset by omega, h]
      have hnext : nextPosition bit offset (offset + (bits + 1)) = nextPosition bit (offset + 1)
          (offset + 1 + bits) := by
        rw [nextPosition_append (m := offset + 1) (by omega) (by omega), hskip, Option.none_or,
          show offset + (bits + 1) = offset + 1 + bits by omega]
      rw [hnext, if_neg Bool.false_ne_true]
      have hrest := ih (offset + 1) fun j hj => by
        have := hbit (j + 1) (by omega)
        rwa [show bits + 1 - 1 - (j + 1) = bits - 1 - j by omega, show offset + (j + 1) = offset +
          1 + j by omega] at this
      rcases hrest with ⟨hnone, heq⟩ | ⟨p, hsome, heq⟩
      · exact .inl ⟨hnone, by rw [heq, show offset + (bits + 1) = offset + 1 + bits by omega]⟩
      · obtain ⟨hge, -⟩ := nextPosition_eq_some_iff.mp hsome
        exact .inr ⟨p, hsome, by rw [heq, show bits - 1 - (p - (offset + 1)) = bits +
          1 - 1 - (p - offset) by omega]⟩

/-- Bit `p` of the stream, where a word begins with its bit 29. -/
def streamBit (data : ℕ → BitVec 32) (p : ℕ) : Bool := (data (p / 30)).getLsbD (29 - p % 30)

/-- The scan of the words finds the next set bit of the stream. -/
theorem scanWords_eq (left dataIndex bits offset : ℕ) (hpos : offset + bits = 30 * (dataIndex + 1))
    (hbits : bits ≤ 30) :
    (nextPosition (streamBit data) offset (30 * (dataIndex + left)) = none ∧
      (scanWords data left dataIndex bits offset).1 = none) ∨
      ∃ p, nextPosition (streamBit data) offset (30 * (dataIndex + left)) = some p ∧
        scanWords data left dataIndex bits offset = (some (29 - p % 30), p) := by
  induction left generalizing dataIndex bits offset with
  | zero => exact .inl ⟨nextPosition_of_le (by omega), rfl⟩
  | succ left ih =>
    have hword := scanWord_eq (streamBit data) (data dataIndex) bits offset fun j hj => by
      rw [streamBit, show (offset + j) / 30 = dataIndex by omega, show 29 - (offset + j) % 30 =
        bits - 1 - j by omega]
    rw [nextPosition_append (m := offset + bits) (by omega) (by omega), scanWords]
    rcases hword with ⟨hnone, heq⟩ | ⟨p, hsome, heq⟩
    · rw [hnone, heq, Option.none_or, show dataIndex + (left + 1) = dataIndex + 1 + left by omega]
      exact ih (dataIndex + 1) 30 (offset + bits) (by omega) (by omega)
    · obtain ⟨hge, hlt, -⟩ := nextPosition_eq_some_iff.mp hsome
      rw [hsome, heq, Option.some_or]
      exact .inr ⟨p, rfl, by rw [show bits - 1 - (p - offset) = 29 - p % 30 by omega]⟩

def pipeAt (p : ℕ) : BitVec 32 := if p % 2 = 0 then CAFLAG_PIPE0 else CAFLAG_PIPE1

theorem consumeCAInstruction_eq (r : CATraceRec) (hoffset : r.offset ≤ 960) :
    (nextPosition (streamBit r.data) r.offset 960 = none ∧ (consumeCAInstruction r).1 = none) ∨
      ∃ p, nextPosition (streamBit r.data) r.offset 960 = some p ∧
        consumeCAInstruction r =
          (some (pipeAt p, BitVec.ofNat 32 (p / 2)), { r with offset := p + 1 }) := by
  rw [consumeCAInstruction]
  by_cases hend : 30 * 32 ≤ r.offset
  · rw [if_pos hend]
    exact .inl ⟨nextPosition_of_le (by omega), rfl⟩
  · rw [if_neg hend]
    have hwords := scanWords_eq r.data (32 - r.offset / 30) (r.offset / 30) (30 - r.offset % 30)
      r.offset (by omega) (by omega)
    rw [show 30 * (r.offset / 30 + (32 - r.offset / 30)) = 960 by omega] at hwords
    rcases hwords with ⟨hnone, heq⟩ | ⟨p, hsome, heq⟩
    · refine .inl ⟨hnone, ?_⟩
      cases hscan : scanWords r.data (32 - r.offset / 30) (r.offset / 30) (30 - r.offset % 30)
        r.offset with
      | mk found offset =>
        rw [hscan] at heq
        obtain rfl : found = none := heq
        simp only [hscan]
    · refine .inr ⟨p, hsome, ?_⟩
      have hparity : (29 - p % 30) % 2 = 1 ↔ p % 2 = 0 := by omega
      simp only [heq, pipeAt, hparity]

end CATraceRec

namespace CATrace

variable (b : List Byte)

/-- Bit `p` of the file; the first is always taken to be set. -/
def bitAt (p : ℕ) : Bool := decide (p = 0) || (word b (4 * (p / 30))).getLsbD (29 - p % 30)

def reportAt (p : ℕ) : BitVec 32 × BitVec 32 := (CATraceRec.pipeAt p, BitVec.ofNat 32 (p / 2))

def Replays : CATrace → List (BitVec 32 × BitVec 32) → Prop
  | s, [] => ∃ s', consumeCAInstruction s = .error .eof s'
  | s, r :: rs => ∃ s', consumeCAInstruction s = .ok r s' ∧ Replays s' rs

variable {b}

theorem getLsbD_and_mask (w : BitVec 32) {i : ℕ} (hi : i < 30) : (w &&& 0x3fffffff#32).getLsbD i =
    w.getLsbD i := by
  have hmask : (0x3fffffff#32).getLsbD i = true := by
    revert i
    decide
  rw [BitVec.getLsbD_and, hmask, Bool.and_true]

theorem getLsbD_fileWord {p : ℕ} : (fileWord b (p / 30)).getLsbD (29 - p % 30) = bitAt b p := by
  have hi : 29 - p % 30 < 30 := by omega
  rw [fileWord, bitAt]
  by_cases h0 : p / 30 = 0
  · rw [if_pos h0, h0, BitVec.getLsbD_or, getLsbD_and_mask _ hi, Bool.or_comm]
    have hp : p < 30 := by omega
    have hfirst : (1#32 <<< 29).getLsbD (29 - p % 30) = decide (p = 0) := by
      rw [Nat.mod_eq_of_lt hp]
      clear h0 hi
      revert p
      decide
    rw [hfirst]
  · rw [if_neg h0, getLsbD_and_mask _ hi, decide_eq_false (show ¬ p = 0 by omega), Bool.false_or]

theorem Loaded.streamBit {k R : ℕ} {s : CATrace} (h : Loaded b k R s) {p : ℕ} (hp : p < 960) :
    CATraceRec.streamBit s.catr.data p = bitAt b (960 * R + p) := by
  rw [CATraceRec.streamBit, h.data _ (by omega), ← getLsbD_fileWord, show (960 * R + p) / 30 = 32 *
    R + p / 30 by omega, show (960 * R + p) % 30 = p % 30 by omega]

def place (R : ℕ) (s : CATrace) : ℕ := 960 * R + s.catr.offset

theorem place_zero (s : CATrace) : place 0 s = s.catr.offset := Nat.zero_add _

theorem findsNext_instruction (k : ℕ) : FindsNext b CATraceRec.consumeCAInstruction 960 k (bitAt b)
    fun _ p => (CATraceRec.pipeAt p, BitVec.ofNat 32 (p / 2)) := by
  intro R s h hoffset
  rw [show 960 * (R + 1) = 960 * R + 960 by omega, nextPosition_shift, nextPosition_congr
    fun p _ hp => (h.streamBit hp).symm]
  rcases s.catr.consumeCAInstruction_eq hoffset with ⟨hnone, heq⟩ | ⟨p, hsome, heq⟩
  · exact .inl ⟨by rw [hnone]; rfl, heq⟩
  · obtain ⟨-, hlt, -⟩ := nextPosition_eq_some_iff.mp hsome
    exact .inr ⟨p, hlt, by rw [hsome]; rfl, heq⟩

/-- One call reports the next set bit, or the end of the file. -/
theorem consumeCAInstruction_loaded {k R : ℕ} {s : CATrace} (h : Loaded b k R s)
    (hoffset : s.catr.offset ≤ 960) :
    (nextPosition (bitAt b) (place R s) (960 * k) = none ∧ ∃ s', consumeCAInstruction s =
      .error .eof s') ∨
      ∃ q R' s', nextPosition (bitAt b) (place R s) (960 * k) = some q ∧ Loaded b k R' s' ∧
        s'.catr.offset ≤ 960 ∧ place R' s' = q + 1 ∧
        consumeCAInstruction s = .ok (reportAt q) s' := by
  have hfuel : k ≤ R + (s.caBuffer.length + 1) := by
    rw [h.caBuffer, h.length]
    omega
  rw [consumeCAInstruction]
  rcases untilConsumed_next (findsNext_instruction k) h hoffset hfuel with
    ⟨hnone, s', heq⟩ | ⟨p, R', s', hp, hsome, hloaded, -, hoffset, heq⟩
  · simp only [heq]
    exact .inl ⟨hnone, s', rfl⟩
  · simp only [heq]
    refine .inr ⟨_, R', s', hsome, hloaded, by omega, by rw [place, hoffset]; rfl, ?_⟩
    have hparity : (960 * R' + p) % 2 = 0 ↔ p % 2 = 0 := by omega
    have hcycles : (960 * R' + p) / 2 = p / 2 + R' * 15 * 32 := by omega
    simp only [reportAt, CATraceRec.pipeAt, hparity, hcycles, hloaded.blockRecNum, BitVec.ofNat_add]

/-- From any place on the calls report the set bits that are left. -/
theorem replays_loaded {k R : ℕ} {s : CATrace} (h : Loaded b k R s)
    (hoffset : s.catr.offset ≤ 960) :
    Replays s ((positions (bitAt b) (place R s) (960 * k)).map reportAt) := by
  generalize hlist : positions (bitAt b) (place R s) (960 * k) = list
  induction list generalizing R s with
  | nil =>
    rcases consumeCAInstruction_loaded h hoffset with ⟨-, heof⟩ | ⟨q, R', s', hsome, -⟩
    · exact heof
    · rw [positions_of_next hsome] at hlist
      cases hlist
  | cons q rest ih =>
    rcases consumeCAInstruction_loaded h hoffset with ⟨hnone, -⟩ | ⟨q', R', s', hsome, hloaded,
      hoffset', hplace, heq⟩
    · rw [positions_of_none hnone] at hlist
      cases hlist
    · rw [positions_of_next hsome, List.cons.injEq] at hlist
      obtain ⟨rfl, hrest⟩ := hlist
      exact ⟨s', heq, ih hloaded hoffset' (hplace ▸ hrest)⟩

/-- **A trace is replayed bit by bit**: the calls until the end of the file report its set bits in
order, with their cycles modulo `2 ^ 32`. The size of the buffer is an `int`. -/
theorem replays_init (garbage : ℕ → CATraceQItem) {k : ℕ} (hk : 1 ≤ k) (hb : b.length = 128 * k)
    (_hint : b.length < 2 ^ 31) :
    Replays (init .instruction b garbage) ((positions (bitAt b) 0 (960 * k)).map reportAt) := by
  obtain ⟨s, hs, hloaded, -, hoffset⟩ := parseNextCATraceRec_eq (b := b) (k := k) (R := 0)
    (s := ⟨.ok, .instruction, b, 0, 0, 0, ⟨0, 0, fun _ => 0⟩, 0, 0, 0, garbage⟩) rfl rfl hb rfl
      (absurd rfl) hk
  have hinit : init .instruction b garbage =
      { s with status := .ok, startAddr := s.catr.address } := by
    rw [init, if_neg (by decide)]
    simp only [reduceCtorEq, if_false, hs]
  have hloaded' : Loaded b k 0 (init .instruction b garbage) := by
    rw [hinit]
    exact ⟨rfl, hloaded.caBuffer, hb, hloaded.caBufferIndex, hloaded.blockRecNum, hk, hloaded.data⟩
  have hplace : place 0 (init .instruction b garbage) = 0 := by
    rw [hinit, place_zero]
    exact hoffset
  have hreplays := replays_loaded hloaded' (by
    rw [place_zero] at hplace
    omega)
  rwa [hplace] at hreplays

def sparseRecords : List Byte :=
  [0x05, 0x00, 0x00, 0x10] ++ List.replicate 4 0 ++ [0x00, 0x80, 0x00, 0x00] ++
    List.replicate 116 0 ++ (List.replicate 120 0 ++ [0x00, 0x00, 0x00, 0x20, 0x01, 0x00,
      0x00, 0x20])

theorem replays_init_sparse : Replays (init .instruction sparseRecords fun _ => ⟨0, 0, 0, 0, 0, 0⟩)
    ([0, 1, 27, 29, 74, 1860, 1890, 1919].map reportAt) := by
  have hpositions : positions (bitAt sparseRecords) 0 (960 * 2) =
      [0, 1, 27, 29, 74, 1860, 1890, 1919] := by
    decide +kernel
  have hlength : sparseRecords.length = 128 * 2 := by decide +kernel
  rw [← hpositions]
  exact replays_init _ (by decide) hlength (by rw [hlength]; decide)

theorem word_append (front back : List Byte) : word (front ++ back) front.length = word back 0 := by
  simp only [word, List.getD_append_right _ _ _ _ (Nat.le_add_right _ _), List.getD_append_right
    _ _ _ _ (Nat.le_refl _), Nat.add_sub_cancel_left, Nat.sub_self, Nat.zero_add]

/-- A file of `k + 1` records with only the last bit set. -/
def lastBit (k : ℕ) : List Byte := List.replicate (128 * k + 124) 0 ++ [1, 0, 0, 0]

theorem length_lastBit (k : ℕ) : (lastBit k).length = 128 * (k + 1) := by
  rw [lastBit, List.length_append, List.length_replicate]
  rfl

theorem bitAt_lastBit (k : ℕ) : bitAt (lastBit k) (960 * k + 959) = true := by
  have hword : word (lastBit k) (128 * k + 124) = 1 := by
    have happend := word_append (List.replicate (128 * k + 124) 0) [1, 0, 0, 0]
    rw [List.length_replicate] at happend
    exact happend
  rw [bitAt, show 4 * ((960 * k + 959) / 30) = 128 * k + 124 by omega, show 29 - (960 * k + 959) %
    30 = 0 by omega, hword]
  exact Bool.or_true _

/-- In a long file the cycles do not fit in 32 bits. -/
theorem not_replays_long : ¬ ∀ (b : List Byte) (garbage : ℕ → CATraceQItem) (k : ℕ), 1 ≤ k →
    b.length = 128 * k →
    b.length < 2 ^ 31 → ∃ results, Replays (init .instruction b garbage) results ∧
      results.map (fun r => (r.1, r.2.toNat)) = (positions (bitAt b) 0 (960 * k)).map fun p =>
        (CATraceRec.pipeAt p, p / 2) := by
  intro hall
  obtain ⟨results, -, heq⟩ :=
    hall (lastBit 8947849) (fun _ => ⟨0, 0, 0, 0, 0, 0⟩) 8947850 (by decide) (length_lastBit _)
      (by rw [length_lastBit]; decide)
  have hmem := List.mem_map_of_mem (f := fun p => (CATraceRec.pipeAt p, p / 2))
    (mem_positions.mpr ⟨Nat.zero_le _, by decide, bitAt_lastBit 8947849⟩ :
      _ ∈ positions (bitAt (lastBit 8947849)) 0 (960 * 8947850))
  rw [← heq] at hmem
  obtain ⟨r, -, hr⟩ := List.mem_map.mp hmem
  have hlt := r.2.isLt
  have hcycles : r.2.toNat = (960 * 8947849 + 959) / 2 := (Prod.mk.inj hr).2
  omega

end CATrace

end TraceDecoder
