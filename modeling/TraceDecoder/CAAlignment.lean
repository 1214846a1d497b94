import Mathlib.Data.Nat.Find
import TraceDecoder.CATrace

/-!
# Where the first record begins, and what a scan of a record reads

A buffer that has wrapped begins in the middle of a record. The loop that looks for the start ends
at the first word in any case, because nothing has been read before it. The loop over the empty
words of a vector record is bounded by the last word and one more.
-/

namespace TraceDecoder

namespace CATraceRec

/-! ### The scan of a vector record -/

def Empty (word : BitVec 32) : Prop := word &&& 0x3fffffff#32 = 0

instance (word : BitVec 32) : Decidable (Empty word) := inferInstanceAs (Decidable (_ = _))

/-- The loop over empty words as it is bounded, and the indices it reads; there are words behind the
last of `data`. -/
def watchEmpty (data : ℕ → BitVec 32) : ℕ → ℕ → List ℕ × ℕ
  | 0, dataIndex => ([], dataIndex)
  | left + 1, dataIndex =>
    if 32 < dataIndex then ([], dataIndex)
    else if Empty (data dataIndex) then
      let (reads, last) := watchEmpty data left (dataIndex + 1)
      (dataIndex :: reads, last)
    else ([dataIndex], dataIndex)

/-- What `consumeCAVector` reads of `data`. -/
def vectorReads (r : CATraceRec) : List ℕ :=
  let (reads, dataIndex) := watchEmpty r.data (33 - r.offset) r.offset
  if 32 ≤ dataIndex then reads else reads ++ [dataIndex]

/-- The call stays inside the record and returns the first word from the
offset on that is not empty. -/
structure ScansRecord (r : CATraceRec) : Prop where
  inside : ∀ i ∈ r.vectorReads, i < 32
  first : ∀ i < 32, r.offset ≤ i → ¬ Empty (r.data i) → (∀ j < i, r.offset ≤ j → Empty (r.data j)) →
    r.consumeCAVector = (some (r.data i, BitVec.ofNat 32 (i * 5)), { r with offset := i + 1 })
  none : (∀ i < 32, r.offset ≤ i → Empty (r.data i)) ↔ r.consumeCAVector.1 = none

section Loop

variable (data : ℕ → BitVec 32)

theorem skipEmpty_succ (left dataIndex : ℕ) :
    skipEmpty data (left + 1) dataIndex = if Empty (data dataIndex) then skipEmpty data left
      (dataIndex + 1) else dataIndex := rfl

/-- The loop passes the empty words in front of one that is not. -/
theorem skipEmpty_eq {i : ℕ} (hi : ¬ Empty (data i)) {left dataIndex : ℕ} (hle : dataIndex ≤ i)
    (hlt : i < dataIndex + left)
    (hempty : ∀ j < i, dataIndex ≤ j → Empty (data j)) : skipEmpty data left dataIndex = i := by
  induction left generalizing dataIndex with
  | zero => omega
  | succ left ih =>
    rw [skipEmpty_succ]
    rcases Nat.eq_or_lt_of_le hle with heq | hless
    · subst heq
      exact if_neg hi
    · rw [if_pos (hempty dataIndex hless le_rfl)]
      apply ih
      · exact hless
      · omega
      · intro j hj hle'
        exact hempty j hj (by omega)

/-- In front of a word that is not empty the reads end. -/
theorem watchEmpty_eq {i : ℕ} (hi : ¬ Empty (data i)) (h32 : i < 32) {left dataIndex : ℕ}
    (hle : dataIndex ≤ i)
    (hlt : i < dataIndex + left) (hempty : ∀ j < i, dataIndex ≤ j → Empty (data j)) :
    (watchEmpty data left dataIndex).2 = i ∧ ∀ j ∈ (watchEmpty data left dataIndex).1, j ≤ i := by
  induction left generalizing dataIndex with
  | zero => omega
  | succ left ih =>
    rw [watchEmpty, if_neg (by omega)]
    rcases Nat.eq_or_lt_of_le hle with heq | hless
    · subst heq
      rw [if_neg hi]
      refine ⟨rfl, ?_⟩
      intro j hj
      exact (List.mem_singleton.mp hj).le
    · have hrest : ∀ j < i, dataIndex + 1 ≤ j → Empty (data j) :=
        fun j hj hle' => hempty j hj (by omega)
      obtain ⟨hlast, hreads⟩ := ih hless (by omega) hrest
      rw [if_pos (hempty dataIndex hless le_rfl)]
      refine ⟨hlast, ?_⟩
      intro j hj
      rcases List.mem_cons.mp hj with rfl | hj
      · exact hle
      · exact hreads j hj

/-- Where all words are empty the word behind the last is read. -/
theorem mem_watchEmpty {left dataIndex : ℕ} (hsum : dataIndex + left = 33) (hleft : 0 < left)
    (hempty : ∀ j < 32, dataIndex ≤ j → Empty (data j)) :
    32 ∈ (watchEmpty data left dataIndex).1 := by
  induction left generalizing dataIndex with
  | zero => omega
  | succ left ih =>
    rw [watchEmpty, if_neg (by omega)]
    by_cases h32 : dataIndex = 32
    · subst h32
      split_ifs
      · exact List.mem_cons_self
      · exact List.mem_cons_self
    · rw [if_pos (hempty dataIndex (by omega) le_rfl)]
      apply List.mem_cons_of_mem
      apply ih
      · omega
      · omega
      · intro j hj hle
        exact hempty j hj (by omega)

end Loop

variable {r : CATraceRec}

theorem consumeCAVector_first {i : ℕ} (h32 : i < 32) (hle : r.offset ≤ i) (hi : ¬ Empty (r.data i))
    (hempty : ∀ j < i, r.offset ≤ j → Empty (r.data j)) :
    r.consumeCAVector = (some (r.data i, BitVec.ofNat 32 (i * 5)), { r with offset := i + 1 }) := by
  have hskip : skipEmpty r.data (32 - r.offset) r.offset = i :=
    skipEmpty_eq r.data hi hle (by omega) hempty
  rw [consumeCAVector, hskip]
  exact if_neg (by omega)

/-- A word that is not empty has a first one in front of it. -/
theorem exists_first (h : ∃ i < 32, r.offset ≤ i ∧ ¬ Empty (r.data i)) :
    ∃ i < 32, r.offset ≤ i ∧ ¬ Empty (r.data i) ∧ ∀ j < i, r.offset ≤ j → Empty (r.data j) := by
  classical
  obtain ⟨h32, hle, hi⟩ := Nat.find_spec h
  refine ⟨Nat.find h, h32, hle, hi, ?_⟩
  intro j hj hle'
  by_contra hj'
  exact Nat.find_min h hj ⟨by omega, hle', hj'⟩

/-- **The scan stays inside the record if and only if a word that is left is not empty.** -/
theorem scansRecord_iff (r : CATraceRec) (hoffset : r.offset ≤ 32) :
    r.ScansRecord ↔ ∃ i < 32, r.offset ≤ i ∧ ¬ Empty (r.data i) := by
  constructor
  · intro h
    by_contra hnone
    push Not at hnone
    have hread : 32 ∈ (watchEmpty r.data (33 - r.offset) r.offset).1 :=
      mem_watchEmpty r.data (by omega) (by omega) hnone
    have hmem : 32 ∈ r.vectorReads := by
      unfold vectorReads
      dsimp only
      split_ifs
      · exact hread
      · exact List.mem_append_left _ hread
    exact absurd (h.inside 32 hmem) (lt_irrefl 32)
  · intro h
    obtain ⟨i, h32, hle, hi, hempty⟩ := exists_first h
    have hfirst := consumeCAVector_first h32 hle hi hempty
    have hlt : i < r.offset + (33 - r.offset) := by omega
    obtain ⟨hlast, hreads⟩ := watchEmpty_eq r.data hi h32 hle hlt hempty
    refine ⟨?_, ?_, ?_⟩
    · intro j hj
      unfold vectorReads at hj
      dsimp only at hj
      rw [hlast, if_neg (by omega)] at hj
      rcases List.mem_append.mp hj with hj | hj
      · exact (hreads j hj).trans_lt h32
      · rw [List.mem_singleton.mp hj]
        exact h32
    · intro j h32' hle' hj hempty'
      exact consumeCAVector_first h32' hle' hj hempty'
    · rw [hfirst]
      constructor
      · intro hall
        exact absurd (hall i h32 hle) hi
      · intro hcontra
        cases hcontra

/-- A record of which the last word alone is not empty is scanned from its first word on. -/
theorem scansRecord_last : ScansRecord ⟨0, 0, fun i => if i = 31 then 1 else 0⟩ := by
  apply (scansRecord_iff _ (by decide)).mpr
  exact ⟨31, by decide, by decide, by decide⟩

/-- The rest of a record that has been consumed is read up to the word behind it. -/
theorem not_scansRecord : ¬ ScansRecord ⟨32, 0, fun _ => 0⟩ :=
  fun h => absurd (h.inside 32 (by decide)) (lt_irrefl 32)

end CATraceRec

/-! ### The start of the trace -/

namespace CATrace

/-- The address bits of word `i` of a buffer. -/
def topBits (caBuffer : List Byte) (i : ℕ) : BitVec 32 := word caBuffer (4 * i) >>> 30

/-- A record begins at word `i`. -/
def StartsAt (caBuffer : List Byte) (i : ℕ) : Prop :=
  topBits caBuffer i = 0x3 ∧ (i = 0 ∨ topBits caBuffer (i - 1) = 0)

def HasRecord (caBuffer : List Byte) (i : ℕ) : Prop := 4 * (i + 32) ≤ caBuffer.length

/-- The record of the words from `i` on, the first of a trace. -/
def leadingRecord (caBuffer : List Byte) (i : ℕ) : CATraceRec :=
  ⟨0, address caBuffer (4 * i + 4), recordData caBuffer true (word caBuffer (4 * i)) (4 * i + 4)⟩

/-- The first record that is parsed begins where the first record of the buffer does. -/
structure AlignsFirst (s : CATrace) : Prop where
  aligned : ∀ i, StartsAt s.caBuffer i → (∀ j < i, ¬ StartsAt s.caBuffer j) →
    HasRecord s.caBuffer i → ∃ s', parseNextCATraceRec s = .ok () s' ∧ s'.caBufferIndex =
      4 * (i + 32) ∧ s'.catr = leadingRecord s.caBuffer i
  eof : (∀ i, StartsAt s.caBuffer i → ¬ HasRecord s.caBuffer i) → ∃ s', parseNextCATraceRec s =
    .error .eof s'

variable {s : CATrace}

theorem findStart_eq {caBuffer : List Byte} (hlength : 8 ≤ caBuffer.length) :
    findStart caBuffer caBuffer.length 0 0 = (true, word caBuffer 0, 4) := by
  obtain ⟨n, hn⟩ : ∃ n, caBuffer.length = n + 1 := ⟨caBuffer.length - 1, by omega⟩
  have hroom : ¬ caBuffer.length < 0 + 4 + 4 := by omega
  -- What is taken for the word before it is 0.
  have hlast : ¬ (word caBuffer 0 >>> 30 ≠ 0x3 ∧ (0 : BitVec 32) >>> 30 ≠ 0) :=
    fun h => h.2 (by decide)
  rw [hn, findStart, if_neg hroom, if_neg hlast]

theorem parseNextCATraceRec_atStart (hstatus : s.status = .ok) (hindex : s.caBufferIndex = 0)
    (hlength : 128 ≤ s.caBuffer.length) :
    ∃ s', parseNextCATraceRec s = .ok () s' ∧ s'.caBufferIndex = 128 ∧
      s'.catr = leadingRecord s.caBuffer 0 := by
  have hfirst : ¬ s.caBuffer.length < 0 + 4 := by omega
  have hroom : ¬ s.caBuffer.length < 4 + 4 * 31 := by omega
  refine ⟨{ s with caBufferIndex := 4 + 4 * 31, blockRecNum := 0, catr := leadingRecord s.caBuffer 0 }, ?_, rfl, rfl⟩
  rw [parseNextCATraceRec, if_neg (by simp [hstatus]), hindex, if_neg hfirst]
  simp only [findStart_eq (by omega : 8 ≤ s.caBuffer.length), decide_true, if_true]
  rw [if_neg hroom]
  rfl

theorem findStart_short {caBuffer : List Byte} (hlength : caBuffer.length < 8) :
    ∃ d i, findStart caBuffer caBuffer.length 0 0 = (false, d, i) := by
  cases hn : caBuffer.length with
  | zero => exact ⟨_, _, rfl⟩
  | succ n =>
    refine ⟨word caBuffer 0, 0 + 4, ?_⟩
    rw [findStart]
    exact if_pos (by omega)

theorem parseNextCATraceRec_short (hstatus : s.status = .ok) (hindex : s.caBufferIndex = 0)
    (hlength : s.caBuffer.length < 128) :
    ∃ s', parseNextCATraceRec s = .error .eof s' := by
  rw [parseNextCATraceRec, if_neg (by simp [hstatus]), hindex]
  by_cases h4 : s.caBuffer.length < 0 + 4
  · exact ⟨_, if_pos h4⟩
  · rw [if_neg h4]
    by_cases h8 : s.caBuffer.length < 8
    · obtain ⟨d, i, hstart⟩ := findStart_short h8
      simp only [hstart, decide_true, if_true]
      exact ⟨_, rfl⟩
    · have hroom : s.caBuffer.length < 4 + 4 * 31 := by omega
      simp only [findStart_eq (by omega : 8 ≤ s.caBuffer.length), decide_true, if_true]
      exact ⟨_, if_pos hroom⟩

/-- **The first record is aligned if and only if the buffer is shorter than a
record or begins with one.** -/
theorem alignsFirst_iff (s : CATrace) (hstatus : s.status = .ok) (hindex : s.caBufferIndex = 0) :
    s.AlignsFirst ↔ s.caBuffer.length < 128 ∨ topBits s.caBuffer 0 = 0x3 := by
  constructor
  · intro h
    by_contra hneither
    obtain ⟨hlength, htop⟩ := not_or.mp hneither
    obtain ⟨s₁, hparse, hat, -⟩ :=
      parseNextCATraceRec_atStart hstatus hindex (Nat.le_of_not_lt hlength)
    by_cases hexists : ∃ i, StartsAt s.caBuffer i ∧ HasRecord s.caBuffer i
    · classical
      obtain ⟨i, hi, hrecord⟩ := hexists
      have hstart : ∃ i, StartsAt s.caBuffer i := ⟨i, hi⟩
      have hle := Nat.find_min' hstart hi
      have hrecord' : HasRecord s.caBuffer (Nat.find hstart) := by
        unfold HasRecord at hrecord ⊢
        omega
      obtain ⟨s₂, hparse', hat', -⟩ :=
        h.aligned _ (Nat.find_spec hstart) (fun j hj => Nat.find_min hstart hj) hrecord'
      rw [hparse] at hparse'
      cases hparse'
      have hzero : Nat.find hstart = 0 := by omega
      have htop' := (Nat.find_spec hstart).1
      rw [hzero] at htop'
      exact htop htop'
    · obtain ⟨s₂, hparse'⟩ := h.eof fun i hi hrecord => hexists ⟨i, hi, hrecord⟩
      rw [hparse] at hparse'
      cases hparse'
  · intro h
    constructor
    · intro i hi hfirst hrecord
      unfold HasRecord at hrecord
      have hlength : 128 ≤ s.caBuffer.length := by omega
      have htop := h.resolve_left (by omega)
      have hzero : i = 0 := by
        by_contra hne
        exact hfirst 0 (Nat.pos_of_ne_zero hne) ⟨htop, .inl rfl⟩
      subst hzero
      exact parseNextCATraceRec_atStart hstatus hindex hlength
    · intro hnone
      apply parseNextCATraceRec_short hstatus hindex
      rcases h with hshort | htop
      · exact hshort
      · have hshort := hnone 0 ⟨htop, .inl rfl⟩
        unfold HasRecord at hshort
        omega

def atStart (caBuffer : List Byte) : CATrace :=
  ⟨.ok, .instruction, caBuffer, 0, 0, 0, ⟨0, 0, fun _ => 0⟩, 0, 0, 0, fun _ => ⟨0, 0, 0, 0, 0, 0⟩⟩

theorem alignsFirst_record : AlignsFirst (atStart (List.replicate 128 0xff)) :=
  (alignsFirst_iff (atStart (List.replicate 128 0xff)) rfl rfl).mpr (.inr (by decide))

/-- The last word of a record of which the others have been overwritten, and one more record. -/
def wrapped : List Byte := List.replicate 4 0 ++ List.replicate 252 0xff

theorem not_alignsFirst : ¬ AlignsFirst (atStart wrapped) := by
  intro h
  have hlength : wrapped.length = 256 := by
    rw [wrapped, List.length_append, List.length_replicate, List.length_replicate]
  have hbefore : ∀ j < 1, ¬ StartsAt wrapped j := by
    intro j hj hstart
    rw [Nat.lt_one_iff.mp hj] at hstart
    exact absurd hstart.1 (by decide)
  have hrecord : HasRecord wrapped 1 := by
    rw [HasRecord, hlength]
    decide
  obtain ⟨s, hparse, hat, -⟩ := h.aligned 1 ⟨by decide, .inr (by decide)⟩ hbefore hrecord
  obtain ⟨s', hparse', hat', -⟩ := parseNextCATraceRec_atStart (s := atStart wrapped) rfl rfl (by
    change 128 ≤ wrapped.length
    omega)
  rw [hparse] at hparse'
  cases hparse'
  omega

end CATrace

end TraceDecoder
