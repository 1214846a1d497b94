import TraceDecoder.CAGroups
import TraceDecoder.CAPacking

/-!
# Words that are read into the queue

`parseNextVectorRecord` tells its caller where the groups of a word begin in the queue, but notes
the place before the queue is packed. Its callers go on from there.
-/

namespace TraceDecoder.CATrace

open RingIndex EStateM

def entry (record cycles : BitVec 32) (i : ℕ) : Option CATraceQItem :=
  if group record i ≠ 0 then some ⟨cycles + BitVec.ofNat 32 i, group record i, 0, 0, 0, 0⟩ else none

def entries (record cycles : BitVec 32) : List CATraceQItem :=
  (List.range 5).filterMap (entry record cycles)

def lastWord (s : CATrace) : BitVec 32 := s.catr.data (s.catr.offset - 1)

def lastCycles (s : CATrace) : BitVec 32 :=
  BitVec.ofNat 32 ((s.catr.offset - 1) * 5) + BitVec.ofNat 32 (s.blockRecNum * 5 * 32)

/-- **A delivery**: from `start` on the queue holds the groups of the word that has been read, and
before them what was left in it. -/
structure Delivers (s : CATrace) (start : ℕ) (s' : CATrace) : Prop where
  groups : cells s'.caTraceQ s'.traceQSize start s'.traceQIn = entries s'.lastWord s'.lastCycles
  older : (cells s'.caTraceQ s'.traceQSize s'.traceQOut start).filter isFull =
    s.contents.filter isFull

variable {s : CATrace}

/-! ### Queueing a word -/

theorem Ring.foldl_addGroup (h : Ring s) (record cycles : BitVec 32) (is : List ℕ)
    (hroom : s.contents.length + is.length < s.traceQSize) :
    ∃ caTraceQ traceQIn, is.foldl (fun s i => addGroup (group record i) (cycles + BitVec.ofNat 32 i)
        s) s =
        { s with caTraceQ := caTraceQ, traceQIn := traceQIn } ∧
      Ring { s with caTraceQ := caTraceQ, traceQIn := traceQIn } ∧
      contents { s with caTraceQ := caTraceQ, traceQIn := traceQIn } = s.contents ++ is.filterMap (entry record cycles) := by
  induction is generalizing s with
  | nil => exact ⟨s.caTraceQ, s.traceQIn, rfl, h, (List.append_nil _).symm⟩
  | cons i is ih =>
    rw [List.length_cons] at hroom
    rw [List.foldl_cons, addGroup, List.filterMap_cons, entry]
    by_cases hrec : group record i = 0
    · rw [if_neg (not_not.mpr hrec), if_neg (not_not.mpr hrec)]
      exact ih h (by omega)
    · have hlt : distance s.traceQSize s.traceQOut s.traceQIn + 1 < s.traceQSize := by
        rw [← length_contents]
        omega
      have hpush : contents { s with
          caTraceQ := Function.update s.caTraceQ s.traceQIn ⟨cycles + BitVec.ofNat 32 i,
            group record i, 0, 0, 0, 0⟩
          traceQIn := shift s.traceQSize s.traceQIn 1 } = s.contents ++
            [⟨cycles + BitVec.ofNat 32 i, group record i, 0, 0, 0, 0⟩] :=
        cells_push s.caTraceQ h.traceQIn h.traceQOut hlt _
      have hpushed : (contents { s with
          caTraceQ := Function.update s.caTraceQ s.traceQIn ⟨cycles + BitVec.ofNat 32 i,
            group record i, 0, 0, 0, 0⟩
          traceQIn := shift s.traceQSize s.traceQIn 1 }).length = s.contents.length + 1 := by
        rw [hpush, List.length_append, List.length_singleton]
      obtain ⟨caTraceQ, traceQIn, hfold, hring, hcontents⟩ := ih (s := { s with
          caTraceQ := Function.update s.caTraceQ s.traceQIn ⟨cycles + BitVec.ofNat 32 i,
            group record i, 0, 0, 0, 0⟩
          traceQIn := shift s.traceQSize s.traceQIn 1 })
        ⟨h.traceQOut, shift_lt (Nat.zero_lt_of_lt h.traceQOut)⟩ (by rw [hpushed]; show _ < s.traceQSize; omega)
      rw [hpush, List.append_assoc] at hcontents
      rw [if_pos hrec, if_pos hrec, next_eq h.traceQIn]
      exact ⟨caTraceQ, traceQIn, hfold, hring, hcontents⟩

theorem addQ_eq (record cycles : BitVec 32) (hroom : ¬ s.roomQ < 5) (pack : CAM Unit) :
    addQ pack record cycles s =
    .ok () ((List.range 5).foldl (fun s i => addGroup (group record i) (cycles + BitVec.ofNat 32 i)
        s) s) := by
  rw [addQ, read_bind_run, onlyIf, if_neg hroom, bind_ok (p := pure ()) (s := s) rfl, read_bind_run,
    onlyIf, if_neg hroom]
  rfl

/-- Where there is room, a word is queued behind what is there. -/
theorem Ring.addQ_of_room (h : Ring s) (record cycles : BitVec 32) (hroom : 5 ≤ s.roomQ)
    (pack : CAM Unit) :
    ∃ caTraceQ traceQIn, addQ pack record cycles s = .ok ()
      { s with caTraceQ := caTraceQ, traceQIn := traceQIn } ∧
      Ring { s with caTraceQ := caTraceQ, traceQIn := traceQIn } ∧
      contents { s with caTraceQ := caTraceQ, traceQIn := traceQIn } = s.contents ++ entries record
        cycles := by
  have hlt := h.length_lt
  have hless := h.roomQ_eq
  obtain ⟨caTraceQ, traceQIn, hfold, hring, hcontents⟩ :=
    h.foldl_addGroup record cycles (List.range 5) (by rw [List.length_range]; omega)
  refine ⟨caTraceQ, traceQIn, ?_, hring, hcontents⟩
  rw [addQ_eq record cycles (Nat.not_lt.mpr hroom), hfold]

/-- Where there is none, it is queued behind what packing has left, or the call fails. -/
theorem Ring.addQ_of_full (h : Ring s) (record cycles : BitVec 32) (hroom : s.roomQ < 5) :
    ∃ caTraceQ traceQIn, Ring { s with caTraceQ := caTraceQ, traceQIn := traceQIn } ∧
      (contents { s with caTraceQ := caTraceQ, traceQIn := traceQIn }).length ≤
        (s.contents.filter isFull).length + 1 ∧
      addQ packQ record cycles s = if roomQ { s with caTraceQ := caTraceQ, traceQIn := traceQIn } <
        5 then .error .err { s with caTraceQ := caTraceQ, traceQIn := traceQIn }
        else addQ packQ record cycles { s with caTraceQ := caTraceQ, traceQIn := traceQIn } := by
  obtain ⟨caTraceQ, traceQIn, holes, hpack, hring, hcontents, hholes, hone⟩ := h.packQ_eq
  refine ⟨caTraceQ, traceQIn, hring, ?_, ?_⟩
  · rw [hcontents, List.length_append]
    exact Nat.add_le_add_left hone _
  split_ifs with hstill
  · rw [addQ, read_bind_run, onlyIf, if_pos hroom, bind_ok hpack, read_bind_run, onlyIf,
      if_pos hstill]
    rfl
  · rw [addQ_eq record cycles hstill, addQ, read_bind_run, onlyIf, if_pos hroom, bind_ok hpack,
      read_bind_run, onlyIf, if_neg hstill]
    rfl

/-- What has been queued behind the entries that were there. -/
theorem Ring.cells_append (h : Ring s) {caTraceQ : ℕ → CATraceQItem} {traceQIn : ℕ}
    {new : List CATraceQItem} (h' : Ring { s with caTraceQ := caTraceQ, traceQIn := traceQIn })
    (hcontents : contents { s with caTraceQ := caTraceQ, traceQIn := traceQIn } = s.contents ++
      new) :
    cells caTraceQ s.traceQSize s.traceQOut s.traceQIn = s.contents ∧
      cells caTraceQ s.traceQSize s.traceQIn traceQIn = new := by
  have hle : s.contents.length ≤ distance s.traceQSize s.traceQOut traceQIn := by
    have hlength := congrArg List.length hcontents
    rw [length_contents, List.length_append] at hlength
    change distance s.traceQSize s.traceQOut traceQIn = _ at hlength
    omega
  rw [← h.slot_length]
  constructor
  · rw [slot, cells_take caTraceQ h'.traceQIn h'.traceQOut hle]
    change (contents { s with caTraceQ := caTraceQ, traceQIn := traceQIn }).take _ = _
    rw [hcontents, List.take_left' rfl]
  · rw [slot, cells_drop caTraceQ h'.traceQIn h'.traceQOut hle]
    change (contents { s with caTraceQ := caTraceQ, traceQIn := traceQIn }).drop _ = _
    rw [hcontents, List.drop_left' rfl]

/-! ### Reading a word -/

/-- The word that is found is the last that has been read. -/
theorem untilConsumed_word {n : ℕ} {record cycles : BitVec 32} {s' : CATrace}
    (hrun : untilConsumed CATraceRec.consumeCAVector n s = .ok (record, cycles) s') :
    SameQueue s s' ∧ record = s'.lastWord ∧ cycles + BitVec.ofNat 32 (s'.blockRecNum * 5 * 32) =
      s'.lastCycles := by
  induction n generalizing s with
  | zero => cases hrun
  | succ n ih =>
    rw [untilConsumed] at hrun
    dsimp only at hrun
    by_cases hend : 32 ≤ CATraceRec.skipEmpty s.catr.data (32 - s.catr.offset) s.catr.offset
    · have hnone : CATraceRec.consumeCAVector s.catr = (none, s.catr) := if_pos hend
      rw [hnone] at hrun
      dsimp only at hrun
      rcases parseNextCATraceRec_cases { s with catr := s.catr } with ⟨rc, status, i, heq⟩ | ⟨i, m,
        r, heq⟩
      · rw [heq] at hrun
        cases hrun
      · rw [heq] at hrun
        obtain ⟨hsame, hword⟩ := ih hrun
        exact ⟨⟨hsame.1, hsame.2, hsame.3, hsame.4, hsame.5⟩, hword⟩
    · have hsome : CATraceRec.consumeCAVector s.catr = _ := if_neg hend
      rw [hsome] at hrun
      cases hrun
      exact ⟨⟨rfl, rfl, rfl, rfl, rfl⟩, rfl, rfl⟩

theorem parseNextVectorRecord_run {start : ℕ} {s' : CATrace}
    (hrun : parseNextVectorRecord packQ s = .ok start s') :
    ∃ s₁ s₂, SameQueue s s₁ ∧ start = s.traceQIn ∧ addQ packQ s₁.lastWord s₁.lastCycles s₁ = .ok
      () s₂ ∧
      s' = { s₂ with status := .ok } := by
  rw [parseNextVectorRecord, read_bind_run] at hrun
  cases hread : untilConsumed CATraceRec.consumeCAVector (s.caBuffer.length + 1) s with
  | error e t =>
    rw [bind_error hread] at hrun
    cases hrun
  | ok word s₁ =>
    obtain ⟨hsame, hrecord, hcycles⟩ := untilConsumed_word hread
    rw [bind_ok hread] at hrun
    dsimp only at hrun
    rw [read_bind_run, read_bind_run, hrecord, hcycles] at hrun
    cases hadd : addQ packQ s₁.lastWord s₁.lastCycles s₁ with
    | error e t =>
      rw [bind_error (e := e) (by rw [checked, hadd])] at hrun
      cases hrun
    | ok u s₂ =>
      rw [bind_ok (a := u) (by rw [checked, hadd])] at hrun
      cases hrun
      exact ⟨s₁, s₂, hsame, hsame.traceQIn, hadd, rfl⟩

theorem Ring.of_same {s' : CATrace} (h : Ring s) (hsame : SameQueue s s') : Ring s' := by
  refine ⟨?_, ?_⟩
  · rw [hsame.traceQOut, hsame.traceQSize]
    exact h.traceQOut
  · rw [hsame.traceQIn, hsame.traceQSize]
    exact h.traceQIn

theorem contents_of_same {s' : CATrace} (hsame : SameQueue s s') : s'.contents = s.contents := by
  rw [contents, contents, hsame.traceQOut, hsame.traceQIn, hsame.traceQSize, hsame.caTraceQ]

theorem roomQ_of_same {s' : CATrace} (hsame : SameQueue s s') : s'.roomQ = s.roomQ := by
  rw [roomQ, roomQ, hsame.traceQOut, hsame.traceQIn, hsame.traceQSize]

/-- **The groups of a word are found** if the queue is not packed for them. -/
theorem Ring.delivers_iff (h : Ring s) {start : ℕ} {s' : CATrace}
    (hrun : parseNextVectorRecord packQ s = .ok start s') :
    Delivers s start s' ↔ 5 ≤ s.roomQ := by
  obtain ⟨s₁, s₂, hsame, rfl, hadd, rfl⟩ := parseNextVectorRecord_run hrun
  have h₁ := h.of_same hsame
  rw [← roomQ_of_same hsame]
  constructor
  · rintro ⟨hgroups, -⟩
    by_contra hfull
    obtain ⟨caTraceQ, traceQIn, hpacked, -, heq⟩ :=
      h₁.addQ_of_full s₁.lastWord s₁.lastCycles (Nat.not_le.mp hfull)
    rw [heq] at hadd
    split_ifs at hadd with hstill
    obtain ⟨caTraceQ', traceQIn', heq', hring, hcontents⟩ :=
      hpacked.addQ_of_room s₁.lastWord s₁.lastCycles (Nat.not_lt.mp hstill) packQ
    rw [heq'] at hadd
    cases hadd
    have hlength :=
      congrArg List.length (hgroups.trans (hpacked.cells_append hring hcontents).2.symm)
    rw [length_cells, length_cells] at hlength
    have hmoved : s.traceQIn = traceQIn :=
      distance_left_inj (hsame.traceQSize ▸ h.traceQIn) hpacked.traceQIn hlength
    rw [← hmoved, ← hsame.traceQIn] at hstill
    exact hstill (Nat.not_le.mp hfull)
  · intro hroom
    obtain ⟨caTraceQ, traceQIn, heq, hring, hcontents⟩ :=
      h₁.addQ_of_room s₁.lastWord s₁.lastCycles hroom packQ
    rw [heq] at hadd
    cases hadd
    obtain ⟨holder, hnew⟩ := h₁.cells_append hring hcontents
    rw [← hsame.traceQIn]
    refine ⟨hnew, ?_⟩
    rw [← contents_of_same hsame, ← holder]

end TraceDecoder.CATrace
