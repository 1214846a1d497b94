import TraceDecoder.CARing

/-!
# The groups of a vector trace

A vector trace is a sequence of groups of six bits, five a word. An entry of the queue is what is
left of a group that has been read; the groups behind are as they are in the file. A search goes
through the groups in order, wherever they are.
-/

namespace TraceDecoder.CATrace

open RingIndex EStateM

variable (b : List Byte)

/-- Group `g` of the file. -/
def groupAt (g : ℕ) : Byte := group (fileWord b (g / 5)) (g % 5)

def freshItem (g : ℕ) : CATraceQItem := ⟨BitVec.ofNat 32 g, groupAt b g, 0, 0, 0, 0⟩

/-- The first `W` words have been read. -/
def WordsRead (k W : ℕ) (s : CATrace) : Prop :=
  ∃ R, Loaded b k R s ∧ s.catr.offset ≤ 32 ∧ W = 32 * R + s.catr.offset

/-- The state of a trace, by what is left of each group. Groups that have been read and are not in
the queue are empty. -/
structure Tracks (k : ℕ) (item : ℕ → CATraceQItem) (groups : List ℕ) (W : ℕ) (s : CATrace) :
    Prop where
  caType : s.caType = .vector
  queued : Queued item groups s
  words : WordsRead b k W s
  sorted : groups.Pairwise (· < ·)
  read : ∀ g ∈ groups, g < 5 * W
  dropped : ∀ g < 5 * W, g ∉ groups → (item g).record = 0
  fresh : ∀ g, 5 * W ≤ g → item g = freshItem b g

variable {b} {k W : ℕ} {item : ℕ → CATraceQItem} {groups : List ℕ} {s : CATrace}

/-! ### Words -/

theorem and_mask_fileWord (w : ℕ) : fileWord b w &&& 0x3fffffff#32 = fileWord b w := by
  apply BitVec.eq_of_getLsbD_eq
  intro i hi
  have hmask : (0x3fffffff#32).getLsbD i = decide (i < 30) := by
    revert i
    decide
  have hhigh : i < 30 ∨ (fileWord b w).getLsbD i = false := by
    by_cases hlt : i < 30
    · exact .inl hlt
    · refine .inr ?_
      have hone : (1#32 <<< 29).getLsbD i = false := by
        revert i
        decide
      rw [fileWord]
      split_ifs
      · rw [BitVec.getLsbD_or, BitVec.getLsbD_and, hmask, decide_eq_false hlt, Bool.and_false, hone,
          Bool.or_false]
      · rw [BitVec.getLsbD_and, hmask, decide_eq_false hlt, Bool.and_false]
  rw [BitVec.getLsbD_and, hmask]
  rcases hhigh with hlt | hfalse
  · rw [decide_eq_true hlt, Bool.and_true]
  · rw [hfalse, Bool.false_and]

theorem skipEmpty_eq (data : ℕ → BitVec 32) (left i : ℕ) (hi : i + left = 32) :
    CATraceRec.skipEmpty data left i =
      (nextPosition (fun j => data j &&& 0x3fffffff#32 ≠ 0) i 32).getD 32 := by
  induction left generalizing i with
  | zero =>
    rw [nextPosition_of_le (by omega)]
    exact hi
  | succ left ih =>
    rw [nextPosition_append (m := i + 1) (by omega) (by omega), CATraceRec.skipEmpty]
    by_cases h0 : data i &&& 0x3fffffff#32 = 0
    · have hnone : nextPosition (fun j => data j &&& 0x3fffffff#32 ≠ 0) i (i + 1) = none :=
          nextPosition_eq_none_iff.mpr fun q hq hqe => by
        obtain rfl : q = i := by omega
        exact decide_eq_false (not_not.mpr h0)
      rw [if_pos h0, hnone, Option.none_or]
      exact ih (i + 1) (by omega)
    · have hsome : nextPosition (fun j => data j &&& 0x3fffffff#32 ≠ 0) i (i + 1) = some i :=
        nextPosition_eq_some_iff.mpr ⟨Nat.le_refl _, by omega, decide_eq_true h0,
          fun q hq hqe => by omega⟩
      rw [if_neg h0, hsome]
      rfl

/-- In a record the next word that is not empty is found. -/
theorem findsNext_vector (k : ℕ) :
    FindsNext b CATraceRec.consumeCAVector 32 k (fun w => fileWord b w ≠ 0)
    fun R j => (fileWord b (32 * R + j), BitVec.ofNat 32 (j * 5)) := by
  intro R s h hoffset
  have hword : ∀ j, s.catr.offset ≤ j → j < 32 →
      (decide (s.catr.data j &&& 0x3fffffff#32 ≠ 0)) = decide (fileWord b (32 * R + j) ≠ 0) :=
        fun j _ hj => by
    rw [h.data j hj, and_mask_fileWord]
  have hskip := skipEmpty_eq s.catr.data (32 - s.catr.offset) s.catr.offset (by omega)
  rw [nextPosition_congr hword] at hskip
  rw [show 32 * (R + 1) = 32 * R + 32 by omega, nextPosition_shift, CATraceRec.consumeCAVector]
  simp only [hskip]
  cases hnext : nextPosition (fun j => decide (fileWord b (32 * R + j) ≠ 0)) s.catr.offset 32 with
  | none => exact .inl ⟨rfl, rfl⟩
  | some j =>
    obtain ⟨-, hlt, -⟩ := nextPosition_eq_some_iff.mp hnext
    refine .inr ⟨j, hlt, rfl, ?_⟩
    simp only [Option.getD_some, Nat.not_le.mpr hlt, if_false, h.data j hlt]

/-! ### The queue behind a word -/

def nonEmpty (b : List Byte) (g : ℕ) : Bool := groupAt b g ≠ 0

/-- The first `n` groups of a word are queued, unless they are empty. -/
theorem foldl_addGroup (h : Queued item groups s) (hroom : groups.length + 5 < 512) (w : ℕ)
    (hfresh : ∀ i < 5, item (5 * w + i) = freshItem b (5 * w + i)) {n : ℕ} (hn : n ≤ 5) :
    ∃ caTraceQ traceQIn, (List.range n).foldl
        (fun s i => addGroup (group (fileWord b w) i) (BitVec.ofNat 32 (5 * w) + BitVec.ofNat 32 i)
          s) s =
        { s with caTraceQ := caTraceQ, traceQIn := traceQIn } ∧
      Queued item (groups ++ positions (nonEmpty b) (5 * w) (5 * w + n))
        { s with caTraceQ := caTraceQ, traceQIn := traceQIn } := by
  induction n with
  | zero =>
    refine ⟨s.caTraceQ, s.traceQIn, rfl, ?_⟩
    rwa [Nat.add_zero, positions_self, List.append_nil]
  | succ n ih =>
    obtain ⟨caTraceQ, traceQIn, heq, hqueued⟩ := ih (by omega)
    have hgroup : groupAt b (5 * w + n) = group (fileWord b w) n := by
      rw [groupAt, show (5 * w + n) / 5 = w by omega, show (5 * w + n) % 5 = n by omega]
    rw [List.range_succ, List.foldl_append, heq, ← Nat.add_assoc, positions_succ (by omega)]
    by_cases hrec : group (fileWord b w) n = 0
    · refine ⟨caTraceQ, traceQIn, ?_, ?_⟩
      · simp only [List.foldl_cons, List.foldl_nil, addGroup, hrec, ne_eq, not_true_eq_false,
          if_false]
      · rwa [nonEmpty, hgroup, hrec, decide_eq_false (by simp), if_neg Bool.false_ne_true,
          List.append_nil]
    · have hlength := length_positions_le (nonEmpty b) (5 * w) (5 * w + n)
      have hpush := hqueued.push (by rw [List.length_append]; omega) (5 * w + n)
      rw [hfresh n (by omega), freshItem, hgroup, BitVec.ofNat_add, List.append_assoc] at hpush
      refine ⟨Function.update caTraceQ traceQIn ⟨BitVec.ofNat 32 (5 * w) + BitVec.ofNat 32 n,
        group (fileWord b w) n, 0, 0, 0, 0⟩,
          next { s with caTraceQ := caTraceQ, traceQIn := traceQIn } traceQIn, ?_, ?_⟩
      · simp only [List.foldl_cons, List.foldl_nil, addGroup, hrec, ne_eq, not_false_eq_true,
          if_true]
      · rw [nonEmpty, hgroup, decide_eq_true hrec, if_pos rfl]
        exact hpush

def noPack : CAM Unit := throw .err

theorem addQ_leaves (h : Queued item groups s) (w : ℕ)
    (hfresh : ∀ i < 5, item (5 * w + i) = freshItem b (5 * w + i)) :
    (∃ e s', addQ noPack (fileWord b w) (BitVec.ofNat 32 (5 * w)) s = .error e s') ∨
      ∃ caTraceQ traceQIn, addQ noPack (fileWord b w) (BitVec.ofNat 32 (5 * w)) s =
          .ok () { s with caTraceQ := caTraceQ, traceQIn := traceQIn } ∧
        Queued item (groups ++ positions (nonEmpty b) (5 * w) (5 * (w + 1)))
          { s with caTraceQ := caTraceQ, traceQIn := traceQIn } := by
  have hroomQ := h.roomQ_eq
  rw [addQ, read_bind_run]
  by_cases hroom : s.roomQ < 5
  · refine .inl ⟨.err, s, ?_⟩
    rw [onlyIf, if_pos hroom]
    rfl
  · obtain ⟨caTraceQ, traceQIn, heq, hqueued⟩ :=
      foldl_addGroup h (by omega) w hfresh (Nat.le_refl 5)
    refine .inr ⟨caTraceQ, traceQIn, ?_, hqueued⟩
    rw [onlyIf, if_neg hroom, ← heq, bind_ok (p := pure ()) (s := s) rfl, read_bind_run, onlyIf,
      if_neg hroom]
    rfl

theorem groupAt_of_empty {w g : ℕ} (hw : fileWord b w = 0) (hg : g / 5 = w) : groupAt b g = 0 := by
  rw [groupAt, hg, hw, group]
  simp

/-- Reading on up to the next word that is not empty queues the groups on the way. -/
theorem Tracks.readOn {w : ℕ} {s' : CATrace} (h : Tracks b k item groups W s) (hw : W ≤ w)
    (hempty : ∀ v, W ≤ v → v < w → fileWord b v = 0) (htype : s'.caType = .vector)
    (hwords : WordsRead b k (w + 1) s')
    (hqueued : Queued item (groups ++ positions (nonEmpty b) (5 * w) (5 * (w + 1))) s') :
    Tracks b k item (groups ++ positions (nonEmpty b) (5 * W) (5 * (w + 1))) (w + 1) s' where
  caType := htype
  queued := by
    have hnone : positions (nonEmpty b) (5 * W) (5 * w) = [] :=
      positions_of_none (nextPosition_eq_none_iff.mpr fun g hg hlt => by
        rw [nonEmpty, groupAt_of_empty (hempty (g / 5) (by omega) (by omega)) rfl]
        rfl)
    rwa [positions_append (m := 5 * w) (by omega) (by omega), hnone, List.nil_append]
  words := hwords
  sorted := List.pairwise_append.mpr ⟨h.sorted, pairwise_positions _ _ _, fun g hg g' hg' =>
    lt_of_lt_of_le (h.read g hg) (mem_positions.mp hg').1⟩
  read := by
    intro g hg
    rcases List.mem_append.mp hg with hg | hg
    · have := h.read g hg
      omega
    · exact (mem_positions.mp hg).2.1
  dropped := by
    intro g hg hmem
    rw [List.mem_append, not_or] at hmem
    by_cases hlt : g < 5 * W
    · exact h.dropped g hlt hmem.1
    · have hzero : ¬ nonEmpty b g = true :=
        fun hne => hmem.2 (mem_positions.mpr ⟨by omega, hg, hne⟩)
      rw [h.fresh g (by omega), freshItem]
      simpa [nonEmpty] using hzero
  fresh := fun g hg => h.fresh g (by omega)

/-- A word that is not empty is read and queued, or the call fails. -/
theorem parseNextVectorRecord_leaves (h : Tracks b k item groups W s) :
    (∃ e s', parseNextVectorRecord noPack s = .error e s') ∨
      ∃ w s', W ≤ w ∧ parseNextVectorRecord noPack s = .ok (shift 512 s.traceQOut groups.length)
        s' ∧ s'.traceQOut = s.traceQOut ∧
        w < 32 * k ∧ Tracks b k item (groups ++ positions (nonEmpty b) (5 * W) (5 * (w + 1)))
          (w + 1) s' := by
  obtain ⟨R, hloaded, hoffset, hW⟩ := h.words
  have hfuel : k ≤ R + (s.caBuffer.length + 1) := by
    rw [hloaded.caBuffer, hloaded.length]
    omega
  rw [parseNextVectorRecord, read_bind_run]
  rcases untilConsumed_next (findsNext_vector k) hloaded hoffset hfuel with
    ⟨-, s', heq⟩ | ⟨p, R', s₁, hp, hsome, hloaded₁, hsame, hoffset₁, heq⟩
  · exact .inl ⟨.eof, s', by rw [bind_error heq]⟩
  · obtain ⟨hge, hlt, -, hempty⟩ := nextPosition_eq_some_iff.mp hsome
    have hcycles : BitVec.ofNat 32 (p * 5) + BitVec.ofNat 32 (s₁.blockRecNum * 5 * 32) =
        BitVec.ofNat 32 (5 * (32 * R' + p)) := by
      rw [hloaded₁.blockRecNum, ← BitVec.ofNat_add]
      congr 1
      omega
    rw [bind_ok heq]
    dsimp only
    rw [read_bind_run, read_bind_run, hcycles]
    rcases addQ_leaves (h.queued.of_same hsame) (32 * R' + p)
      (fun i hi => h.fresh _ (by omega)) with ⟨e, s', hadd⟩ | ⟨caTraceQ, traceQIn, hadd, hqueued⟩
    · exact .inl ⟨e, { s' with status := e }, by rw [bind_error (e := e)]; rw [checked, hadd]⟩
    · refine .inr ⟨32 * R' + p,
        { s₁ with caTraceQ := caTraceQ, traceQIn := traceQIn, status := .ok }, by
        omega, ?_, hsame.traceQOut, by omega, ?_⟩
      · have hchecked : checked (addQ noPack (fileWord b (32 * R' + p))
            (BitVec.ofNat 32 (5 * (32 * R' + p)))) s₁ =
              .ok () { s₁ with caTraceQ := caTraceQ, traceQIn := traceQIn } := by rw [checked, hadd]
        rw [bind_ok hchecked, hsame.traceQIn, h.queued.traceQIn]
        rfl
      · refine h.readOn (by omega) (fun v hv hvw => by simpa using hempty v (by omega) hvw)
          (hsame.caType.trans h.caType) ⟨R', ?_, by rw [hoffset₁]; omega, ?_⟩ ?_
        · exact ⟨rfl, hloaded₁.caBuffer, hloaded₁.length, hloaded₁.caBufferIndex,
            hloaded₁.blockRecNum, hloaded₁.last, hloaded₁.data⟩
        · show 32 * R' + p + 1 = 32 * R' + s₁.catr.offset
          omega
        · exact ⟨hqueued.size, hqueued.out, hqueued.fits, hqueued.traceQIn, hqueued.queue⟩

/-- What is left of groups that are neither in the queue nor still to be read does not matter as
long as it is empty. -/
theorem Tracks.congr {item' : ℕ → CATraceQItem} (h : Tracks b k item groups W s)
    (hgroups : ∀ g ∈ groups, item' g = item g)
    (hdropped : ∀ g < 5 * W, g ∉ groups → (item' g).record = 0)
    (hfresh : ∀ g, 5 * W ≤ g → item' g = item g) :
    Tracks b k item' groups W s where
  caType := h.caType
  queued := ⟨h.queued.size, h.queued.out, h.queued.fits, h.queued.traceQIn, fun j g hg => by
    rw [h.queued.queue j g hg, hgroups g (List.mem_of_getElem? hg)]⟩
  words := h.words
  sorted := h.sorted
  read := h.read
  dropped := hdropped
  fresh g hg := by rw [hfresh g hg, h.fresh g hg]

theorem Tracks.words_le (h : Tracks b k item groups W s) : W ≤ 32 * k := by
  obtain ⟨R, hloaded, hoffset, rfl⟩ := h.words
  have hlast := hloaded.last
  omega

end TraceDecoder.CATrace
