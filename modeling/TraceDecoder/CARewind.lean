import TraceDecoder.CAQueue

/-!
# Rewinding a cycle-accurate trace

`CATrace::rewind` parses the first record again, as the constructor does. The constructor does so in
an object whose status is ok, `rewind` in one that may have come to the end of the file, and there
the parser does nothing.
-/

namespace TraceDecoder.CATrace

open EStateM

def rewind (s : CATrace) : DQErr × CATrace :=
  let s := { s with caBufferIndex := 0, catr := { s.catr with offset := 0, address := 0 } }
  let s := match parseNextCATraceRec s with
    | .ok _ s => { s with status := .ok }
    | .error rc s => { s with status := rc }
  let s := { s with startAddr := s.catr.address, traceQOut := 0, traceQIn := 0 }
  (s.status, s)

/-- The calls for a sequence of instructions, each with what its parameters are before. A call that
fails does not end the sequence. -/
def after (calls : List (InstType × CAInfo)) (s : CATrace) : CATrace :=
  calls.foldl (fun s call => (consume call.1 call.2 s).state) s

def returned {α : Type} : EStateM.Result DQErr CATrace α → Except DQErr α
  | .ok a _ => .ok a
  | .error rc _ => .error rc

def results : List (InstType × CAInfo) → CATrace → List (Except DQErr CAInfo)
  | [], _ => []
  | call :: calls, s =>
    returned (consume call.1 call.2 s) :: results calls (consume call.1 call.2 s).state

/-! ### What stays -/

structure Made (type : CATraceType) (file : List Byte) (s : CATrace) : Prop where
  caType : s.caType = type
  caBuffer : s.caBuffer = file
  traceQSize : s.traceQSize = if type = .vector then 512 else 0

/-- Parsing a record changes the position and the record at most. -/
theorem parseNextCATraceRec_cases (s : CATrace) :
    (∃ rc status i, parseNextCATraceRec s =
      .error rc { s with status := status, caBufferIndex := i }) ∨
      ∃ i n r, parseNextCATraceRec s =
        .ok () { s with caBufferIndex := i, blockRecNum := n, catr := r } := by
  rw [parseNextCATraceRec]
  by_cases hstatus : s.status ≠ .ok
  · exact .inl ⟨_, s.status, s.caBufferIndex, if_pos hstatus⟩
  rw [if_neg hstatus]
  by_cases hend : s.caBuffer.length < s.caBufferIndex + 4
  · exact .inl ⟨_, .eof, s.caBufferIndex, if_pos hend⟩
  rw [if_neg hend]
  dsimp only
  cases hfind : (if decide (s.caBufferIndex = 0) = true then findStart s.caBuffer s.caBuffer.length
      0 0 else (true, word s.caBuffer s.caBufferIndex, s.caBufferIndex + 4)) with
  | mk found di =>
    cases found with
    | false => exact .inl ⟨_, _, _, rfl⟩
    | true =>
      dsimp only
      by_cases hroom : s.caBuffer.length < di.2 + 4 * 31
      · exact .inl ⟨_, s.status, _, if_pos hroom⟩
      · exact .inr ⟨_, _, _, if_neg hroom⟩

section
variable {type : CATraceType} {file : List Byte} {α : Type} (packQ : CAM Unit)

theorem keeps_checked {p : CAM α} (hp : Keeps (Made type file) p) :
    Keeps (Made type file) (checked p) := by
  intro s h
  have hrun := hp s h
  rw [checked]
  cases hs : p s with
  | ok a t => rw [hs] at hrun; exact hrun
  | error e t => rw [hs] at hrun; exact ⟨hrun.caType, hrun.caBuffer, hrun.traceQSize⟩

theorem keeps_parseNextCATraceRec : Keeps (Made type file) parseNextCATraceRec := by
  intro s h
  rcases s.parseNextCATraceRec_cases with ⟨rc, status, i, heq⟩ | ⟨i, n, r, heq⟩
  all_goals
    rw [heq]
    exact ⟨h.caType, h.caBuffer, h.traceQSize⟩

theorem keeps_untilConsumed (consume : CATraceRec → Option α × CATraceRec) (n : ℕ) :
    Keeps (Made type file) (untilConsumed consume n) := by
  induction n with
  | zero => exact fun s h => h
  | succ n ih =>
    intro s h
    rw [untilConsumed]
    dsimp only
    cases hconsume : consume s.catr with
    | mk found r =>
      have hmade : Made type file { s with catr := r } := ⟨h.caType, h.caBuffer, h.traceQSize⟩
      have hparse := keeps_parseNextCATraceRec { s with catr := r } hmade
      cases found with
      | some a => exact hmade
      | none =>
        dsimp only
        cases hp : parseNextCATraceRec { s with catr := r } with
        | ok u t =>
          rw [hp] at hparse
          exact ih t hparse
        | error rc t =>
          rw [hp] at hparse
          exact ⟨hparse.caType, hparse.caBuffer, hparse.traceQSize⟩

theorem keeps_packQ : Keeps (Made type file) CATrace.packQ := by
  have hloop : ∀ n dst src s, Made type file s → Made type file (packLoop n dst src s).2 := by
    intro n
    induction n with
    | zero => exact fun _ _ _ h => h
    | succ n ih =>
      intro dst src s h
      rw [packLoop]
      dsimp only
      split_ifs
      · exact ih _ _ _ ⟨h.caType, h.caBuffer, h.traceQSize⟩
      · exact ih _ _ _ h
      · exact ih _ _ _ h
      · exact h
  intro s h
  have hpacked := hloop (s.traceQSize + 1) s.traceQOut s.traceQOut s h
  rw [CATrace.packQ]
  dsimp only
  split_ifs
  · exact ⟨hpacked.caType, hpacked.caBuffer, hpacked.traceQSize⟩
  · exact hpacked

variable {packQ} (hpack : Keeps (Made type file) packQ)
include hpack

theorem keeps_addQ (data t : BitVec 32) : Keeps (Made type file) (addQ packQ data t) := by
  have hgroup : ∀ rec t s, Made type file s → Made type file (addGroup rec t s) := by
    intro rec t s h
    rw [addGroup]
    split_ifs
    · exact ⟨h.caType, h.caBuffer, h.traceQSize⟩
    · exact h
  have hgroups : ∀ (l : List ℕ) s, Made type file s →
      Made type file (l.foldl (fun s i => addGroup (group data i) (t + BitVec.ofNat 32 i) s)
        s) := by
    intro l
    induction l with
    | nil => exact fun _ h => h
    | cons i l ih => exact fun s h => ih _ (hgroup _ _ s h)
  exact Keeps.read.bind fun _ => (Keeps.onlyIf fun _ => hpack).bind fun _ => Keeps.read.bind
      fun _ =>
    (Keeps.onlyIf fun _ => .throw).bind fun _ => Keeps.modify fun s h => hgroups _ s h

theorem keeps_parseNextVectorRecord : Keeps (Made type file) (parseNextVectorRecord packQ) :=
  Keeps.read.bind fun _ => (keeps_untilConsumed _ _).bind fun _ => Keeps.read.bind
      fun _ => Keeps.read.bind fun _ =>
    (keeps_checked (keeps_addQ hpack _ _)).bind fun _ =>
      (Keeps.modify fun _ h => ⟨h.caType, h.caBuffer, h.traceQSize⟩).bind fun _ => .pure

theorem keeps_searchTrace (visit : CATraceQItem → CATraceQItem × Option α) (n QStart : ℕ) :
    Keeps (Made type file) (searchTrace packQ visit n QStart) := by
  have hsearch : ∀ n QStart s, Made type file s →
      Made type file (searchQ visit n QStart s).2.2 := by
    intro n
    induction n with
    | zero => exact fun _ _ h => h
    | succ n ih =>
      intro QStart s h
      rw [searchQ]
      split_ifs
      · exact h
      · cases (visit (s.caTraceQ QStart)).2 with
        | some a => exact ⟨h.caType, h.caBuffer, h.traceQSize⟩
        | none => exact ih _ _ ⟨h.caType, h.caBuffer, h.traceQSize⟩
  induction n generalizing QStart with
  | zero => exact .throw
  | succ n ih =>
    intro s h
    have hrun := hsearch s.traceQSize QStart s h
    rw [searchTrace]
    dsimp only
    cases hq : searchQ visit s.traceQSize QStart s with
    | mk found rest =>
      rw [hq] at hrun
      cases found with
      | some a => exact hrun
      | none => exact ((keeps_checked (keeps_parseNextVectorRecord hpack)).bind ih) rest.2 hrun

theorem keeps_consumeCAPipe (QStart : ℕ) : Keeps (Made type file) (consumeCAPipe packQ QStart) :=
  Keeps.read.bind fun _ => (Keeps.onlyIf fun _ => .throw).bind fun _ => Keeps.read.bind
    fun _ => keeps_searchTrace hpack _ _ _

theorem keeps_consumeCAVector (QStart : ℕ) (type' : CAVectorTraceFlags) :
    Keeps (Made type file) (consumeCAVector packQ QStart type') := by
  refine Keeps.read.bind fun _ => (Keeps.onlyIf fun _ => .throw).bind fun _ => Keeps.read.bind
    fun _ => ?_
  dsimp only
  split_ifs
  all_goals
    refine Keeps.bind ?_ fun _ => Keeps.read.bind fun _ => Keeps.read.bind fun _ =>
      (keeps_searchTrace hpack _ _ _).bind fun _ => Keeps.read.bind fun _ => .pure
  · exact keeps_checked (keeps_parseNextVectorRecord hpack)
  · exact .pure

theorem keeps_consumeFinishes (types : List CAVectorTraceFlags) (qStart : ℕ) (cycles : BitVec 32) :
    Keeps (Made type file) (consumeFinishes packQ qStart cycles types) := by
  induction types generalizing qStart cycles with
  | nil => exact .pure
  | cons type' types ih =>
    exact (keeps_checked (keeps_consumeCAVector hpack qStart type')).bind fun _ => ih _ _

theorem keeps_consumeEvents (qStart : ℕ) (iType : InstType) (info : CAInfo) :
    Keeps (Made type file) (consumeEvents packQ qStart iType info) := by
  rw [consumeEvents]
  cases finishTypes iType with
  | nil => exact .pure
  | cons type' types =>
    exact (keeps_checked (keeps_consumeCAVector hpack _ _)).bind
        fun _ => (keeps_checked (keeps_consumeCAVector hpack _ _)).bind fun _ =>
      (keeps_consumeFinishes hpack types _ _).bind fun _ => .pure

theorem keeps_consumeWith (iType : InstType) (info : CAInfo) :
    Keeps (Made type file) (consumeWith packQ iType info) := by
  refine Keeps.read.bind fun _ => (Keeps.onlyIf fun _ => .throw).bind fun _ => Keeps.read.bind
    fun caType => ?_
  cases caType with
  | none => exact .throw
  | instruction =>
    refine (keeps_checked fun s h => ?_).bind fun _ => .pure
    have hrun := keeps_untilConsumed CATraceRec.consumeCAInstruction (s.caBuffer.length + 1) s h
    rw [consumeCAInstruction]
    dsimp only
    cases hs : untilConsumed CATraceRec.consumeCAInstruction (s.caBuffer.length + 1) s with
    | ok found t => rw [hs] at hrun; exact hrun
    | error rc t => rw [hs] at hrun; exact hrun
  | vector =>
    exact Keeps.read.bind fun _ => (keeps_checked (keeps_consumeCAPipe hpack _)).bind fun _ =>
      (keeps_consumeEvents hpack _ iType _).bind
        fun _ => (Keeps.modify fun _ h => ⟨h.caType, h.caBuffer, h.traceQSize⟩).bind fun _ => .pure

end

variable {type : CATraceType} {file : List Byte} {s : CATrace}

theorem Made.after (h : Made type file s) (calls : List (InstType × CAInfo)) :
    Made type file (after calls s) := by
  induction calls generalizing s with
  | nil => exact h
  | cons call calls ih =>
    have hrun := keeps_consumeWith keeps_packQ call.1 call.2 s h
    refine ih ?_
    dsimp only [consume]
    cases hs : consumeWith CATrace.packQ call.1 call.2 s with
    | ok a t => rw [hs] at hrun; exact hrun
    | error rc t => rw [hs] at hrun; exact hrun

/-! ### A status that is not ok -/

theorem consume_of_status (hstatus : s.status ≠ .ok) (iType : InstType) (info : CAInfo) :
    consume iType info s = .error s.status s := by
  rw [consume, consumeWith, read_bind_run, onlyIf, if_pos hstatus]
  rfl

/-- An object that is not ok stays as it is, and every call returns its status. -/
theorem after_of_status (hstatus : s.status ≠ .ok) (calls : List (InstType × CAInfo)) :
    after calls s = s ∧ results calls s = calls.map fun _ => .error s.status := by
  induction calls with
  | nil => exact ⟨rfl, rfl⟩
  | cons call calls ih =>
    have hcall := consume_of_status hstatus call.1 call.2
    rw [after, List.foldl_cons, results, hcall]
    exact ⟨ih.1, congrArg (_ :: ·) ih.2⟩

/-! ### The first record -/

def firstRecord (caBuffer : List Byte) : Option (ℕ × CATraceRec) :=
  if caBuffer.length < 4 then none
  else
    match findStart caBuffer caBuffer.length 0 0 with
    | (false, _, _) => none
    | (true, d, i) =>
      if caBuffer.length < i + 4 * 31 then none
        else some (i + 4 * 31, ⟨0, address caBuffer i, recordData caBuffer true d i⟩)

theorem parseNextCATraceRec_first (hstatus : s.status = .ok) (hindex : s.caBufferIndex = 0) :
    match firstRecord s.caBuffer with
    | none => ∃ s', parseNextCATraceRec s = .error .eof s'
    | some (i, r) =>
      parseNextCATraceRec s =
        .ok () { s with caBufferIndex := i, blockRecNum := 0, catr := r } := by
  rw [parseNextCATraceRec, if_neg (not_not.mpr hstatus), hindex, firstRecord, Nat.zero_add]
  by_cases hend : s.caBuffer.length < 4
  · rw [if_pos hend, if_pos hend]
    exact ⟨_, rfl⟩
  rw [if_neg hend, if_neg hend]
  simp only [decide_true, if_true]
  cases hfind : findStart s.caBuffer s.caBuffer.length 0 0 with
  | mk found di =>
    cases found with
    | false => exact ⟨_, rfl⟩
    | true =>
      dsimp only
      by_cases hroom : s.caBuffer.length < di.2 + 4 * 31
      · rw [if_pos hroom, if_pos hroom]
        exact ⟨_, rfl⟩
      · rw [if_neg hroom, if_neg hroom]

def opened (type : CATraceType) (file : List Byte) (garbage : ℕ → CATraceQItem) : CATrace :=
  ⟨.ok, type, file, 0, 0, 0, ⟨0, 0, fun _ => 0⟩, if type = .vector then 512 else 0, 0, 0, garbage⟩

theorem init_eq (garbage : ℕ → CATraceQItem) : init type file garbage =
    if type = .none then { opened type file garbage with status := .err }
    else
      match parseNextCATraceRec (opened type file garbage) with
      | .ok _ s => { s with status := .ok, startAddr := s.catr.address }
      | .error rc s => { s with status := rc, startAddr := s.catr.address } := rfl

theorem init_some (htype : type ≠ .none) {i : ℕ} {r : CATraceRec}
    (hfirst : firstRecord file = some (i, r)) (garbage : ℕ → CATraceQItem) :
    init type file garbage =
      { opened type file garbage with caBufferIndex := i, catr := r, startAddr := r.address } := by
  have hparse := @parseNextCATraceRec_first (opened type file garbage) rfl rfl
  rw [show (opened type file garbage).caBuffer = file from rfl, hfirst] at hparse
  rw [init_eq, if_neg htype, hparse]
  rfl

theorem init_none (h : type = .none ∨ firstRecord file = none) (garbage : ℕ → CATraceQItem) :
    (init type file garbage).status = (if type = .none then .err else .eof) ∧
    (init type file garbage).startAddr = 0 := by
  rw [init_eq]
  by_cases htype : type = .none
  · rw [if_pos htype, if_pos htype]
    exact ⟨rfl, rfl⟩
  rw [if_neg htype, if_neg htype]
  have hparse := @parseNextCATraceRec_first (opened type file garbage) rfl rfl
  rw [show (opened type file garbage).caBuffer = file from rfl, h.resolve_left htype] at hparse
  obtain ⟨s', hs'⟩ := hparse
  obtain ⟨rc, status, i, heq⟩ | ⟨i, n, r, heq⟩ :=
    (opened type file garbage).parseNextCATraceRec_cases
  · obtain ⟨rfl, -⟩ := Result.error.inj (heq.symm.trans hs')
    rw [heq]
    exact ⟨rfl, rfl⟩
  · cases hs'.symm.trans heq

theorem made_init (garbage : ℕ → CATraceQItem) : Made type file (init type file garbage) := by
  rw [init_eq]
  split_ifs
  · exact ⟨rfl, rfl, rfl⟩
  · obtain ⟨rc, status, i, heq⟩ | ⟨i, n, r, heq⟩ :=
      (opened type file garbage).parseNextCATraceRec_cases
    all_goals
      rw [heq]
      exact ⟨rfl, rfl, rfl⟩

/-! ### Rewinding -/

/-- The object is a new one for the same file. The constructor does not set the memory of
the queue, so whatever is in it may be there in a new object. An object that is not ok does
not look at its position. -/
structure Restarts (type : CATraceType) (file : List Byte) (s : CATrace) : Prop where
  status : ∀ garbage, (rewind s).1 = (init type file garbage).status
  startAddr : ∀ garbage, (rewind s).2.startAddr = (init type file garbage).startAddr
  state : (rewind s).1 = .ok → (rewind s).2 = init type file s.caTraceQ
  results : ∀ calls, CATrace.results calls (rewind s).2 = CATrace.results calls
    (init type file s.caTraceQ)

/-- The parser does nothing in an object that is not ok. -/
theorem rewind_of_status (hstatus : s.status ≠ .ok) :
    (rewind s).1 = s.status ∧ (rewind s).2.status = s.status ∧ (rewind s).2.startAddr = 0 := by
  rw [rewind]
  dsimp only
  rw [parseNextCATraceRec]
  dsimp only
  rw [if_pos hstatus]
  exact ⟨rfl, rfl, rfl⟩

/-- In an object that is ok the queue is all that is left. -/
theorem rewind_of_ok (h : Made type file s) (hstatus : s.status = .ok) (htype : type ≠ .none)
    {i : ℕ} {r : CATraceRec}
    (hfirst : firstRecord file = some (i, r)) : rewind s = (.ok, init type file s.caTraceQ) := by
  have hparse :=
    @parseNextCATraceRec_first
      { s with caBufferIndex := 0, catr := { s.catr with offset := 0, address := 0 } } hstatus rfl
  have hfirst' : firstRecord s.caBuffer = some (i, r) := by rw [h.caBuffer, hfirst]
  dsimp only at hparse
  rw [hfirst'] at hparse
  rw [rewind, init_some htype hfirst, opened]
  dsimp only
  rw [hparse, ← h.traceQSize, ← h.caType, ← h.caBuffer]

theorem status_init_ne (garbage : ℕ → CATraceQItem) :
    (init type file garbage).status ≠ .ok ↔ type = .none ∨ firstRecord file = none := by
  constructor
  · intro hstatus
    by_contra h
    rw [not_or] at h
    obtain ⟨ir, hfirst⟩ := Option.ne_none_iff_exists'.mp h.2
    rw [init_some h.1 hfirst] at hstatus
    exact hstatus rfl
  · intro h
    rw [(init_none h garbage).1]
    split_ifs <;> decide

/-- **Rewinding** makes the object like a new one if and only if it is ok, or could not be
constructed to begin with. -/
theorem rewind_restarts_iff (type : CATraceType) (file : List Byte) (garbage : ℕ → CATraceQItem)
    (calls : List (InstType × CAInfo)) :
    Restarts type file (after calls (init type file garbage)) ↔
      (after calls (init type file garbage)).status = .ok ∨ (init type file garbage).status ≠
        .ok := by
  have hmade := (@made_init type file garbage).after calls
  by_cases hnew : (init type file garbage).status = .ok
  · have hlive := mt (status_init_ne garbage).mpr (not_not.mpr hnew)
    rw [not_or] at hlive
    obtain ⟨ir, hfirst⟩ := Option.ne_none_iff_exists'.mp hlive.2
    rw [or_iff_left (not_not.mpr hnew)]
    have hinit : ∀ garbage', (init type file garbage').status = .ok ∧
        (init type file garbage').startAddr = ir.2.address :=
      fun garbage' => by
        rw [init_some hlive.1 hfirst]
        exact ⟨rfl, rfl⟩
    constructor
    · intro h
      by_contra hstatus
      have hrewound := h.status garbage
      rw [(rewind_of_status hstatus).1, hnew] at hrewound
      exact hstatus hrewound
    · intro hstatus
      have hrewound := rewind_of_ok hmade hstatus hlive.1 hfirst
      refine ⟨fun garbage' => ?_, fun garbage' => ?_, fun _ => by rw [hrewound],
        fun calls' => by rw [hrewound]⟩
      · rw [hrewound, (hinit garbage').1]
      · rw [hrewound, (hinit garbage').2]
        exact (hinit _).2
  · -- the object has always been as it was made
    have hdead := (status_init_ne garbage).mp hnew
    obtain ⟨hreturned, hstatus, hstart⟩ := rewind_of_status hnew
    refine iff_of_true ?_ (.inr hnew)
    rw [(after_of_status hnew calls).1]
    have hsame : ∀ garbage', (init type file garbage').status = (init type file garbage).status :=
        fun garbage' => by
      rw [(init_none hdead garbage').1, (init_none hdead garbage).1]
    refine ⟨fun garbage' => hreturned.trans (hsame garbage').symm, fun garbage' => hstart.trans
      (init_none hdead garbage').2.symm, fun hok => absurd (hreturned.symm.trans hok) hnew,
        fun calls' => ?_⟩
    rw [(after_of_status (hstatus.trans_ne hnew) calls').2,
      (after_of_status ((hsame _).trans_ne hnew) calls').2, hstatus,
        hsame (init type file garbage).caTraceQ]

def emptyRecord : List Byte := List.replicate 128 0x00

/-- Two calls come to the end of the file. After that, the object returns the
end of the file for ever. -/
theorem not_rewind_restarts :
    ¬ ∀ (type : CATraceType) (file : List Byte) (garbage : ℕ → CATraceQItem)
    (calls : List (InstType × CAInfo)),
    Restarts type file (after calls (init type file garbage)) := by
  intro hall
  set garbage : ℕ → CATraceQItem := fun _ => ⟨0, 0, 0, 0, 0, 0⟩ with hgarbage
  set call : InstType × CAInfo := (.unknown, ⟨0, 0, 0, 0, 0, 0, 0, 0⟩) with hcall
  have hresults := (hall .instruction emptyRecord garbage [call, call]).results [call]
  have hrewound :
      (results [call] (rewind (after [call, call] (init .instruction emptyRecord garbage))).2).map
      Except.toBool = [false] := by
    decide +kernel
  have hnew : (results [call] (init .instruction emptyRecord
      (after [call, call] (init .instruction emptyRecord garbage)).caTraceQ)).map Except.toBool =
        [true] := by
    decide +kernel
  rw [hresults, hnew] at hrewound
  cases hrewound

end TraceDecoder.CATrace
