import TraceDecoder.CAReads

/-!
# The states in which a word is read

A call of `consume` looks for its events in the queue one after the other and reads a word whenever
the queue has nothing more. Other calls do not touch the queue, but for `rewind`.
-/

namespace TraceDecoder

open EStateM CATrace RingIndex

inductive CAEvent
  | pipe
  | vector (type : CAVectorTraceFlags)

namespace CAEvent

def search (e : CAEvent) (QStart : ℕ) (s : CATrace) : Bool × ℕ × CATrace :=
  match e with
  | pipe =>
    let (a, QStart, s) := searchQ CATraceQItem.visitPipe s.traceQSize QStart s
    (a.isSome, QStart, s)
  | vector type =>
    let (a, QStart, s) := searchQ (CATraceQItem.visitVector type) s.traceQSize QStart s
    (a.isSome, QStart, s)

/-- Where the search for the next event starts. A vector instruction can end in the group its pipe
bit is in. -/
def next (e : CAEvent) (s : CATrace) (found : ℕ) : ℕ :=
  match e with
  | pipe => found
  | vector _ => s.next found

def ofInst (iType : InstType) : List CAEvent :=
  pipe :: match finishTypes iType with
    | [] => []
    | types => vector .start :: types.map vector

end CAEvent

/-- Between two calls, or in a call that still looks for some events, from an entry on. -/
inductive CAStage
  | idle
  | searching (events : List CAEvent) (QStart : ℕ)

namespace CATrace

/-- The states that a vector trace can be in. After a call that fails nothing is read any more, and
`rewind` fails too. -/
inductive Reached (file : List Byte) (garbage : ℕ → CATraceQItem) : CAStage → CATrace → Prop
  | made : (init .vector file garbage).status = .ok → Reached file garbage .idle
    (init .vector file garbage)
  | rewound {s} : Reached file garbage .idle s → (rewind s).1 = .ok →
    Reached file garbage .idle (rewind s).2
  | called {s} (iType : InstType) : Reached file garbage .idle s → s.status = .ok →
      Reached file garbage (.searching (CAEvent.ofInst iType) s.traceQOut) s
  | found {e es QStart s found s'} : Reached file garbage (.searching (e :: es) QStart) s →
      e.search QStart s = (true, found, s') → Reached file garbage (.searching es (e.next s' found))
        s'
  | read {e es QStart s last s₁ newDataStart s'} :
      Reached file garbage (.searching (e :: es) QStart) s → e.search QStart s = (false, last, s₁) →
        parseNextVectorRecord packQ s₁ = .ok newDataStart s' →
      Reached file garbage (.searching (e :: es) newDataStart) s'
  | returned {QStart s} : Reached file garbage (.searching [] QStart) s →
    Reached file garbage .idle s.dropEmpty

/-- The states in which `parseNextVectorRecord` is called. -/
def ReadsIn (file : List Byte) (garbage : ℕ → CATraceQItem) (s : CATrace) : Prop :=
  ∃ (e : CAEvent) (es : List CAEvent) (QStart last : ℕ) (s₀ : CATrace),
    Reached file garbage (.searching (e :: es) QStart) s₀ ∧ e.search QStart s₀ = (false, last, s)

variable {file : List Byte} {garbage : ℕ → CATraceQItem} {s : CATrace}

/-! ### The indices -/

section
variable {α : Type} (visit : CATraceQItem → CATraceQItem × Option α)

theorem searchQ_eq (n QStart : ℕ) (s : CATrace) :
    ∃ a found caTraceQ, searchQ visit n QStart s = (a, found, { s with caTraceQ := caTraceQ }) := by
  induction n generalizing QStart s with
  | zero => exact ⟨none, QStart, s.caTraceQ, rfl⟩
  | succ n ih =>
    rw [searchQ]
    by_cases hend : QStart = s.traceQIn
    · exact ⟨none, QStart, s.caTraceQ, if_pos hend⟩
    · rw [if_neg hend]
      dsimp only
      cases (visit (s.caTraceQ QStart)).2 with
      | some a => exact ⟨some a, QStart, _, rfl⟩
      | none => exact ih (s.next QStart) _

end

theorem search_eq (e : CAEvent) (QStart : ℕ) (s : CATrace) :
    ∃ found last caTraceQ, e.search QStart s = (found, last, { s with caTraceQ := caTraceQ }) := by
  cases e with
  | pipe =>
    obtain ⟨a, found, caTraceQ, heq⟩ := searchQ_eq CATraceQItem.visitPipe s.traceQSize QStart s
    exact ⟨a.isSome, found, caTraceQ, by rw [CAEvent.search, heq]⟩
  | vector type =>
    obtain ⟨a, found, caTraceQ, heq⟩ :=
      searchQ_eq (CATraceQItem.visitVector type) s.traceQSize QStart s
    exact ⟨a.isSome, found, caTraceQ, by rw [CAEvent.search, heq]⟩

theorem Ring.of_search (h : Ring s) {e : CAEvent} {QStart last : ℕ} {found : Bool} {s' : CATrace}
    (hsearch : e.search QStart s = (found, last, s')) : Ring s' := by
  obtain ⟨found', last', caTraceQ, heq⟩ := search_eq e QStart s
  rw [heq] at hsearch
  cases hsearch
  exact ⟨h.traceQOut, h.traceQIn⟩

theorem Ring.of_read (h : Ring s) {start : ℕ} {s' : CATrace}
    (hrun : parseNextVectorRecord packQ s = .ok start s') : Ring s' := by
  obtain ⟨s₁, s₂, hsame, -, hadd, rfl⟩ := parseNextVectorRecord_run hrun
  have h₁ := h.of_same hsame
  suffices hring : Ring s₂ from ⟨hring.traceQOut, hring.traceQIn⟩
  by_cases hroom : s₁.roomQ < 5
  · obtain ⟨caTraceQ, traceQIn, hpacked, -, heq⟩ := h₁.addQ_of_full s₁.lastWord s₁.lastCycles hroom
    rw [heq] at hadd
    split_ifs at hadd with hstill
    obtain ⟨caTraceQ', traceQIn', heq', hring, -⟩ :=
      hpacked.addQ_of_room s₁.lastWord s₁.lastCycles (Nat.not_lt.mp hstill) packQ
    rw [heq'] at hadd
    cases hadd
    exact hring
  · obtain ⟨caTraceQ, traceQIn, heq, hring, -⟩ :=
      h₁.addQ_of_room s₁.lastWord s₁.lastCycles (Nat.not_lt.mp hroom) packQ
    rw [heq] at hadd
    cases hadd
    exact hring

theorem Ring.dropEmpty (h : Ring s) : Ring s.dropEmpty := by
  have hseek := h.seek_eq (fun item => item.record = 0) (n := s.traceQSize) (Nat.zero_le _)
    (by have := h.length_lt; omega)
  rw [h.slot_zero] at hseek
  refine ⟨?_, h.traceQIn⟩
  change s.seek (fun item => item.record = 0) s.traceQSize s.traceQOut < s.traceQSize
  rw [hseek]
  exact shift_lt (Nat.zero_lt_of_lt h.traceQOut)

theorem ring_init : Ring (init .vector file garbage) := by
  rw [init_eq, if_neg CATraceType.noConfusion]
  obtain ⟨rc, status, i, heq⟩ | ⟨i, n, r, heq⟩ :=
    (opened .vector file garbage).parseNextCATraceRec_cases
  all_goals
    rw [heq]
    exact ⟨Nat.zero_lt_succ 511, Nat.zero_lt_succ 511⟩

theorem Ring.rewind (h : Ring s) : Ring (rewind s).2 := by
  have hsize : 0 < s.traceQSize := Nat.zero_lt_of_lt h.traceQOut
  rw [CATrace.rewind]
  dsimp only
  obtain ⟨rc, status, i, heq⟩ | ⟨i, n, r, heq⟩ :=
    parseNextCATraceRec_cases
      { s with caBufferIndex := 0, catr := { s.catr with offset := 0, address := 0 } }
  all_goals
    rw [heq]
    exact ⟨hsize, hsize⟩

theorem Reached.ring {stage : CAStage} (h : Reached file garbage stage s) : Ring s := by
  induction h with
  | made hstatus => exact ring_init
  | rewound h hok ih => exact ih.rewind
  | called iType h hstatus ih => exact ih
  | found h hsearch ih => exact ih.of_search hsearch
  | read h hsearch hread ih => exact (ih.of_search hsearch).of_read hread
  | returned h ih => exact ih.dropEmpty

theorem Reached.made' {stage : CAStage} (h : Reached file garbage stage s) :
    Made .vector file s := by
  induction h with
  | made hstatus => exact made_init garbage
  | @rewound s h hok ih =>
    rw [rewind]
    dsimp only
    obtain ⟨rc, status, i, heq⟩ | ⟨i, n, r, heq⟩ :=
      parseNextCATraceRec_cases
        { s with caBufferIndex := 0, catr := { s.catr with offset := 0, address := 0 } }
    all_goals
      rw [heq]
      exact ⟨ih.caType, ih.caBuffer, ih.traceQSize⟩
  | called iType h hstatus ih => exact ih
  | @found e es QStart s found s' h hsearch ih =>
    obtain ⟨_, _, caTraceQ, heq⟩ := search_eq e QStart s
    cases heq.symm.trans hsearch
    exact ⟨ih.caType, ih.caBuffer, ih.traceQSize⟩
  | @read e es QStart s last s₁ newDataStart s' h hsearch hread ih =>
    obtain ⟨_, _, caTraceQ, heq⟩ := search_eq e QStart s
    cases heq.symm.trans hsearch
    have hmade : Made .vector file { s with caTraceQ := caTraceQ } :=
      ⟨ih.caType, ih.caBuffer, ih.traceQSize⟩
    exact (keeps_parseNextVectorRecord keeps_packQ).of_ok hmade hread
  | returned h ih => exact ⟨ih.caType, ih.caBuffer, ih.traceQSize⟩

/-! ### The calls go through these states -/

theorem leaves_checked {α : Type} {p : CAM α} {pre : CATrace → Prop} {post : α → CATrace → Prop}
    (h : Leaves pre p post fun _ _ => True) : Leaves pre (checked p) post fun _ _ => True := by
  intro s hs
  have hrun := h s hs
  rw [checked]
  cases hp : p s with
  | ok a s' =>
    rw [hp] at hrun
    exact hrun
  | error e s' => trivial

/-- A search that goes on in the words behind the queue. -/
theorem leaves_searchTrace {α : Type} {visit : CATraceQItem → CATraceQItem × Option α} {e : CAEvent}
    {es : List CAEvent}
    (hvisit : ∀ QStart s, e.search QStart s = ((searchQ visit s.traceQSize QStart s).1.isSome,
      (searchQ visit s.traceQSize QStart s).2))
    (n QStart : ℕ) : Leaves (Reached file garbage (.searching (e :: es) QStart))
    (searchTrace packQ visit n QStart)
      (fun a s' => Reached file garbage (.searching es (e.next s' a.2)) s') fun _ _ => True := by
  induction n generalizing QStart with
  | zero => exact fun _ _ => trivial
  | succ n ih =>
    intro s h
    have hsearch := hvisit QStart s
    rw [searchTrace]
    dsimp only
    cases hq : searchQ visit s.traceQSize QStart s with
    | mk a rest =>
      rw [hq] at hsearch
      cases a with
      | some a => exact h.found hsearch
      | none =>
        have hread : Leaves (· = rest.2) (checked (parseNextVectorRecord packQ))
            (fun newDataStart s' => Reached file garbage (.searching (e :: es) newDataStart) s')
              fun _ _ => True := by
          apply leaves_checked
          rintro s₁ rfl
          cases hrun : parseNextVectorRecord packQ rest.2 with
          | ok newDataStart s' => exact h.read hsearch hrun
          | error rc s' => trivial
        exact hread.bind ih rest.2 rfl

theorem leaves_consumeCAPipe (es : List CAEvent) (QStart : ℕ) :
    Leaves (Reached file garbage (.searching (.pipe :: es) QStart)) (consumeCAPipe packQ QStart)
      (fun a s' => Reached file garbage (.searching es a.2) s') fun _ _ => True := by
  refine Keeps.read.leaves.bind fun size => (Keeps.onlyIf fun _ => .throw).leaves.bind
    fun _ => Keeps.read.leaves.bind fun fuel => ?_
  exact leaves_searchTrace (e := .pipe) (fun _ _ => rfl) fuel QStart

/-- At the end of the queue a word is read before the search. -/
theorem leaves_consumeCAVector (type : CAVectorTraceFlags) (es : List CAEvent) (QStart : ℕ) :
    Leaves (Reached file garbage (.searching (.vector type :: es) QStart))
      (consumeCAVector packQ QStart type)
      (fun a s' => Reached file garbage (.searching es a.2.2) s') fun _ _ => True := by
  refine Keeps.read.leaves.bind fun size => (Keeps.onlyIf fun _ => .throw).leaves.bind fun _ => ?_
  have hin : Leaves (Reached file garbage (.searching (.vector type :: es) QStart))
      (EStateM.read (·.traceQIn) : CAM ℕ) (fun traceQIn s => Reached file garbage
        (.searching (.vector type :: es) QStart) s ∧ traceQIn = s.traceQIn) fun _ _ => True :=
    Leaves.read fun s h => ⟨h, rfl⟩
  have hfirst : Leaves (fun s => Reached file garbage (.searching (.vector type :: es) QStart) s ∧
      QStart = s.traceQIn) (checked (parseNextVectorRecord packQ)) (fun start s' => Reached file
        garbage (.searching (.vector type :: es) start) s')
      fun _ _ => True := by
    apply leaves_checked
    rintro s ⟨h, hend⟩
    have hnone : searchQ (CATraceQItem.visitVector type) s.traceQSize QStart s =
        (none, QStart, s) := by
      cases s.traceQSize with
      | zero => rfl
      | succ n => rw [searchQ, if_pos hend]
    have hmiss : (CAEvent.vector type).search QStart s = (false, QStart, s) := by
      rw [CAEvent.search, hnone]
      rfl
    cases hrun : parseNextVectorRecord packQ s with
    | ok newDataStart s' => exact h.read hmiss hrun
    | error rc s' => trivial
  refine hin.bind fun traceQIn => ?_
  dsimp only
  split_ifs with hend
  all_goals
    refine Leaves.bind ?_ fun start => Keeps.read.leaves.bind fun infos => Keeps.read.leaves.bind
        fun fuel =>
      (leaves_searchTrace (e := .vector type) (fun _ _ => rfl) fuel start).bind fun a => fun s h =>
        h
  · exact hfirst.weaken (fun s h => ⟨h.1, hend.trans h.2⟩) (fun _ _ h => h) fun _ _ h => h
  · exact Leaves.pure fun s h => h.1

theorem leaves_consumeFinishes (types : List CAVectorTraceFlags) (QStart : ℕ) (cycles : BitVec 32) :
    Leaves (Reached file garbage (.searching (types.map .vector) QStart))
      (consumeFinishes packQ QStart cycles types)
      (fun _ s' => ∃ QStart, Reached file garbage (.searching [] QStart) s') fun _ _ => True := by
  induction types generalizing QStart cycles with
  | nil => exact Leaves.pure fun s h => ⟨QStart, h⟩
  | cons type types ih =>
    exact (leaves_checked (leaves_consumeCAVector type _ QStart)).bind fun a => ih a.2.2 a.1

theorem leaves_consumeEvents (iType : InstType) (info : CAInfo) (QStart : ℕ) :
    Leaves (Reached file garbage (.searching (CAEvent.ofInst iType).tail QStart))
      (consumeEvents packQ QStart iType info)
      (fun _ s' => ∃ QStart, Reached file garbage (.searching [] QStart) s') fun _ _ => True := by
  rw [consumeEvents, CAEvent.ofInst, List.tail_cons]
  cases finishTypes iType with
  | nil => exact Leaves.pure fun s h => ⟨QStart, h⟩
  | cons type types =>
    exact (leaves_checked (leaves_consumeCAVector .start _ QStart)).bind fun started =>
      (leaves_checked (leaves_consumeCAVector type _ started.2.2)).bind fun finished =>
        (leaves_consumeFinishes types finished.2.2 finished.1).bind fun cycles => Leaves.pure
          fun s h => h

/-- **A call** goes from a state between two calls to such a state. -/
theorem leaves_consume (iType : InstType) (info : CAInfo) :
    Leaves (Reached file garbage .idle) (consume iType info)
      (fun _ s' => Reached file garbage .idle s') fun _ _ => True := by
  have hstatus : Leaves (Reached file garbage .idle) (EStateM.read (·.status) : CAM DQErr)
      (fun status s => Reached file garbage .idle s ∧ status = s.status) fun _ _ => True :=
        Leaves.read fun s h => ⟨h, rfl⟩
  have hstart : Leaves (fun s => Reached file garbage .idle s ∧ s.status = .ok)
      (EStateM.read (·.traceQOut) : CAM ℕ) (fun QStart s => Reached file garbage
        (.searching (CAEvent.ofInst iType) QStart) s) fun _ _ => True :=
    Leaves.read fun s h => h.1.called iType h.2
  have hok (status : DQErr) : Leaves (fun s => Reached file garbage .idle s ∧ status = s.status)
      (onlyIf (status ≠ .ok) (throw status) : CAM Unit) (fun _ s => Reached file garbage .idle s ∧
        s.status = .ok) fun _ _ => True :=
    Leaves.onlyIf (fun _ _ _ => trivial) fun hok s h => ⟨h.1, h.2 ▸ not_not.mp hok⟩
  refine hstatus.bind fun status => (hok status).bind fun _ => Leaves.read_bind
    (fun s h => h.1.made'.caType) (hstart.bind fun QStart => ?_)
  refine (leaves_checked (leaves_consumeCAPipe _ QStart)).bind fun found =>
      (leaves_consumeEvents iType _ found.2).bind fun info =>
    Leaves.bind (Leaves.modify fun s h => ?_) fun _ => Leaves.pure fun s h => h
  obtain ⟨QStart, h⟩ := h
  exact h.returned

/-! ### A call that fills the queue -/

section
variable {α : Type} {visit : CATraceQItem → CATraceQItem × Option α} {n j : ℕ}

theorem Ring.searchQ_found (h : Ring s) (hj : j < s.contents.length) {a : α}
    (hfound : (visit s.contents[j]).2 = some a) :
    ∃ caTraceQ, searchQ visit (n + 1) (s.slot j) s =
      (some a, s.slot j, { s with caTraceQ := caTraceQ }) ∧
      contents { s with caTraceQ := caTraceQ } = s.contents.set j (visit s.contents[j]).1 := by
  have hne : s.slot j ≠ s.traceQIn := by
    rw [Ne, h.slot_eq_traceQIn_iff hj.le]
    omega
  rw [searchQ, if_neg hne, caTraceQ_slot hj, hfound]
  refine ⟨_, rfl, ?_⟩
  exact cells_update s.caTraceQ h.traceQIn h.traceQOut (by rwa [← length_contents]) _

theorem Ring.searchQ_next (h : Ring s) (hj : j < s.contents.length)
    (hmiss : (visit s.contents[j]).2 = none) :
    ∃ caTraceQ, searchQ visit (n + 1) (s.slot j) s = searchQ visit n (s.slot (j + 1))
      { s with caTraceQ := caTraceQ } ∧
      contents { s with caTraceQ := caTraceQ } = s.contents.set j (visit s.contents[j]).1 := by
  have hne : s.slot j ≠ s.traceQIn := by
    rw [Ne, h.slot_eq_traceQIn_iff hj.le]
    omega
  rw [searchQ, if_neg hne, caTraceQ_slot hj, hmiss, h.next_slot]
  refine ⟨_, rfl, ?_⟩
  exact cells_update s.caTraceQ h.traceQIn h.traceQOut (by rwa [← length_contents]) _

def records (s : CATrace) : List Byte := s.contents.map (·.record)

/-- A search that finds nothing in records like those of the queue leaves
the records as they are. -/
theorem Ring.searchQ_miss {P : Byte → Prop} (hvisit : ∀ x, P x.record → (visit x).2 = none ∧
      (visit x).1.record = x.record) (h : Ring s)
    (hall : ∀ r ∈ s.records, P r) (hj : j ≤ s.contents.length) :
    ∃ last caTraceQ, searchQ visit n (s.slot j) s = (none, last, { s with caTraceQ := caTraceQ }) ∧
      records { s with caTraceQ := caTraceQ } = s.records := by
  induction n generalizing s j with
  | zero => exact ⟨_, s.caTraceQ, rfl, rfl⟩
  | succ n ih =>
    by_cases hend : j = s.contents.length
    · refine ⟨s.slot j, s.caTraceQ, ?_, rfl⟩
      rw [searchQ, if_pos (by rw [hend, h.slot_length])]
    · have hlt : j < s.contents.length := by omega
      obtain ⟨hmiss, hrecord⟩ :=
        hvisit s.contents[j] (hall _ (List.mem_map_of_mem (List.getElem_mem hlt)))
      obtain ⟨caTraceQ, heq, hcontents⟩ := h.searchQ_next (n := n) hlt hmiss
      have hsame : records { s with caTraceQ := caTraceQ } = s.records := by
        rw [records, hcontents, List.map_set, hrecord, records]
        apply List.ext_getElem
        · rw [List.length_set]
        · intro m hm hm'
          rw [List.getElem_set]
          split_ifs with hmj
          · simp only [hmj, List.getElem_map]
          · rfl
      have hlength : (contents { s with caTraceQ := caTraceQ }).length = s.contents.length := by
        rw [hcontents, List.length_set]
      obtain ⟨last, caTraceQ', heq', hrecords⟩ :=
        ih (s := { s with caTraceQ := caTraceQ }) (j := j + 1) ⟨h.traceQOut, h.traceQIn⟩
          (by rwa [hsame]) (by omega)
      exact ⟨last, caTraceQ', heq.trans heq', hrecords.trans hsame⟩

end

variable {b : List Byte} {k W : ℕ}

/-- The next word of the file, which is not empty, is read if there is room for it in the end. -/
theorem WordsRead.parseNextVectorRecord (h : WordsRead b k W s) (hW : W < 32 * k)
    (hword : fileWord b W ≠ 0) :
    ∃ s₁, SameQueue s s₁ ∧ WordsRead b k (W + 1) s₁ ∧
      ∀ caTraceQ traceQIn, addQ packQ (fileWord b W) (BitVec.ofNat 32 (5 * W)) s₁ = .ok ()
        { s₁ with caTraceQ := caTraceQ, traceQIn := traceQIn } →
        CATrace.parseNextVectorRecord packQ s =
          .ok s.traceQIn { s₁ with caTraceQ := caTraceQ, traceQIn := traceQIn, status := .ok } := by
  obtain ⟨R, hloaded, hoffset, rfl⟩ := h
  have hfuel : k ≤ R + (s.caBuffer.length + 1) := by
    rw [hloaded.caBuffer, hloaded.length]
    omega
  have hnext : nextPosition (fun w => decide (fileWord b w ≠ 0)) (32 * R + s.catr.offset) (32 * k) =
      some (32 * R + s.catr.offset) :=
    nextPosition_eq_some_iff.mpr ⟨Nat.le_refl _, hW, decide_eq_true hword, fun q hq hlt => by omega⟩
  rcases untilConsumed_next (findsNext_vector k) hloaded hoffset hfuel with ⟨hnone, -⟩ | ⟨p, R', s₁,
    hp, hsome, hloaded₁, hsame, hoffset₁, heq⟩
  · cases hnone.symm.trans hnext
  · have hplace : 32 * R' + p = 32 * R + s.catr.offset := Option.some.inj (hsome.symm.trans hnext)
    have hcycles : BitVec.ofNat 32 (p * 5) + BitVec.ofNat 32 (s₁.blockRecNum * 5 * 32) =
        BitVec.ofNat 32 (5 * (32 * R + s.catr.offset)) := by
      rw [hloaded₁.blockRecNum, ← BitVec.ofNat_add]
      congr 1
      omega
    refine ⟨s₁, hsame, ⟨R', hloaded₁, by omega, by omega⟩, fun caTraceQ traceQIn hadd => ?_⟩
    rw [CATrace.parseNextVectorRecord, read_bind_run, bind_ok heq]
    dsimp only
    rw [read_bind_run, read_bind_run, hcycles, hplace, bind_ok (by rw [checked, hadd]),
      hsame.traceQIn]
    rfl

theorem WordsRead.status (h : WordsRead b k W s) : s.status = .ok := by
  obtain ⟨R, hloaded, -⟩ := h
  exact hloaded.status

theorem WordsRead.of_queue (h : WordsRead b k W s) {status : DQErr} (hok : status = .ok)
    (caTraceQ : ℕ → CATraceQItem) (traceQIn : ℕ) :
    WordsRead b k W { s with caTraceQ := caTraceQ, traceQIn := traceQIn, status := status } := by
  obtain ⟨R, hloaded, hoffset, hW⟩ := h
  exact ⟨R, ⟨hok, hloaded.2, hloaded.3, hloaded.4, hloaded.5, hloaded.6, hloaded.7⟩, hoffset, hW⟩

def startsFile : List Byte :=
  [0x00, 0x00, 0x20, 0x20] ++ (List.replicate 127 [0x08, 0x82, 0x20, 0x08]).flatten

theorem fileWord_startsFile : ∀ w < 128, fileWord startsFile w = if w = 0 then 0x20200000#32
    else 0x08208208#32 := by
  decide +kernel

/-- The search for the finish of the instruction has read `m` words. -/
structure Filling (garbage : ℕ → CATraceQItem) (m j : ℕ) (s : CATrace) : Prop where
  reached : Reached startsFile garbage (.searching [.vector .arith] (s.slot j)) s
  words : WordsRead startsFile 4 (m + 1) s
  traceQSize : s.traceQSize = 512
  records : s.records = 0 :: 0 :: List.replicate (5 * m) CAVFLAG_VISTART
  le : j ≤ s.contents.length

theorem length_records (s : CATrace) : s.records.length = s.contents.length := List.length_map _

/-- The search finds nothing in the queue, which is full of starts. -/
theorem Filling.search {m j : ℕ} (h : Filling garbage m j s) : ∃ last caTraceQ,
    (CAEvent.vector .arith).search (s.slot j) s = (false, last, { s with caTraceQ := caTraceQ }) ∧
      CATrace.records { s with caTraceQ := caTraceQ } = s.records := by
  have hvisit (x : CATraceQItem) (hx : x.record &&& CAVFLAG_VIARITH = 0) :
      (x.visitVector .arith).2 = none ∧ (x.visitVector .arith).1.record = x.record := by
    have hnot : ¬ (x.count .arith).record &&& CAVectorTraceFlags.code .arith ≠ 0 := not_not.mpr hx
    rw [CATraceQItem.visitVector, if_neg hnot]
    exact ⟨rfl, rfl⟩
  have hall : ∀ r ∈ s.records, r &&& CAVFLAG_VIARITH = 0 := by
    intro r hr
    rw [h.records, List.mem_cons, List.mem_cons, List.mem_replicate] at hr
    rcases hr with rfl | rfl | ⟨-, rfl⟩ <;> decide
  obtain ⟨last, caTraceQ, heq, hrecords⟩ :=
    h.reached.ring.searchQ_miss (n := s.traceQSize) hvisit hall h.le
  refine ⟨last, caTraceQ, ?_, hrecords⟩
  rw [CAEvent.search, heq]
  rfl

theorem Filling.length {m j : ℕ} (h : Filling garbage m j s) : s.contents.length = 5 * m + 2 := by
  rw [← length_records, h.records, List.length_cons, List.length_cons, List.length_replicate]

theorem records_append {s' : CATrace} {new : List CATraceQItem}
    (h : s'.contents = s.contents ++ new) :
    s'.records = s.records ++ new.map (·.record) := by
  rw [records, h, List.map_append]
  rfl

theorem Filling.step {m j : ℕ} (h : Filling garbage m j s) (hm : m ≤ 100) :
    ∃ j' s', Filling garbage (m + 1) j' s' := by
  obtain ⟨last, caTraceQ, hsearch, hrecords⟩ := h.search
  have hring := h.reached.ring.of_search hsearch
  have hlength := h.length
  have hsize := h.traceQSize
  generalize hs₀ : ({ s with caTraceQ := caTraceQ } : CATrace) = s₀ at hsearch hrecords hring
  have hlength₀ : s₀.contents.length = 5 * m + 2 := by
    rw [← length_records, hrecords, length_records, hlength]
  have hwords₀ : WordsRead startsFile 4 (m + 1) s₀ :=
    hs₀ ▸ h.words.of_queue h.words.status caTraceQ s.traceQIn
  have hsize₀ : s₀.traceQSize = 512 := by rw [← hs₀, ← hsize]
  have hword : fileWord startsFile (m + 1) = 0x08208208#32 := by
    rw [fileWord_startsFile (m + 1) (by omega), if_neg (Nat.succ_ne_zero m)]
  obtain ⟨s₁, hsame, hwords₁, hread⟩ :=
    hwords₀.parseNextVectorRecord (by omega) (by rw [hword]; decide)
  have hring₁ := hring.of_same hsame
  have hroom : 5 ≤ s₁.roomQ := by
    rw [roomQ_of_same hsame, hring.roomQ_eq, hlength₀, hsize₀]
    omega
  obtain ⟨caTraceQ', traceQIn, hadd, hring', hcontents⟩ :=
    hring₁.addQ_of_room (fileWord startsFile (m + 1)) (BitVec.ofNat 32 (5 * (m + 1))) hroom packQ
  rw [contents_of_same hsame] at hcontents
  have hstart : s₀.traceQIn = shift s₁.traceQSize s₁.traceQOut s₀.contents.length := by
    rw [hsame.traceQSize, hsame.traceQOut, ← slot, hring.slot_length]
  have hreached := h.reached.read hsearch (hread caTraceQ' traceQIn hadd)
  rw [hstart] at hreached
  refine ⟨s₀.contents.length,
    { s₁ with caTraceQ := caTraceQ', traceQIn := traceQIn, status := .ok }, hreached,
    hwords₁.of_queue rfl _ _, hsame.traceQSize.trans hsize₀, ?_, ?_⟩
  · have hentries : (entries (fileWord startsFile (m + 1)) (BitVec.ofNat 32 (5 * (m + 1)))).map
        (·.record) = List.replicate 5 CAVFLAG_VISTART := by
      rw [hword]
      rfl
    change CATrace.records { s₁ with caTraceQ := caTraceQ', traceQIn := traceQIn } = _
    rw [records_append hcontents, hentries, hrecords, h.records, List.cons_append, List.cons_append,
      List.replicate_append_replicate]
    rfl
  · change _ ≤ (contents { s₁ with caTraceQ := caTraceQ', traceQIn := traceQIn }).length
    rw [hcontents, List.length_append]
    exact Nat.le_add_right _ _

theorem init_vector (garbage : ℕ → CATraceQItem) (hk : 1 ≤ k) (hb : b.length = 128 * k) :
    WordsRead b k 0 (init .vector b garbage) ∧ (init .vector b garbage).traceQSize = 512 ∧
      (init .vector b garbage).contents = [] := by
  obtain ⟨s, hs, hloaded, hsame, hoffset⟩ :=
    parseNextCATraceRec_eq (b := b) (k := k) (R := 0) (s := opened .vector b garbage) rfl rfl hb rfl
      (absurd rfl) hk
  have hinit : init .vector b garbage = { s with status := .ok, startAddr := s.catr.address } := by
    rw [init_eq, if_neg CATraceType.noConfusion, hs]
  have hempty : s.contents = [] := (contents_of_same hsame).trans (cells_self garbage 512 0)
  rw [hinit]
  refine ⟨⟨0, ⟨rfl, hloaded.2, hloaded.3, hloaded.4, hloaded.5, hloaded.6, hloaded.7⟩, ?_, ?_⟩,
    hsame.traceQSize, hempty⟩
  · rw [hoffset]
    exact Nat.zero_le 32
  · rw [hoffset]

/-- The first word is read by the search for the pipe bit. -/
theorem startsFile_first (garbage : ℕ → CATraceQItem) :
    ∃ s s', ReadsIn startsFile garbage s ∧ 5 ≤ s.roomQ ∧
    parseNextVectorRecord packQ s = .ok s.traceQIn s' ∧
    Reached startsFile garbage (.searching (CAEvent.ofInst .vectArith) (s'.slot 0)) s' ∧
      WordsRead startsFile 4 1 s' ∧
    s'.traceQSize = 512 ∧ s'.contents =
      [⟨0, CAVFLAG_V0, 0, 0, 0, 0⟩, ⟨1, CAVFLAG_VISTART, 0, 0, 0, 0⟩] := by
  obtain ⟨hwords, hsize, hempty⟩ :=
    init_vector garbage (b := startsFile) (k := 4) (by decide) (by decide +kernel)
  have hidle : Reached startsFile garbage .idle (init .vector startsFile garbage) :=
    .made hwords.status
  have hcalled := hidle.called .vectArith hwords.status
  have hring := hidle.ring
  generalize init .vector startsFile garbage = s at hwords hsize hempty hring hcalled
  have hend : s.traceQOut = s.traceQIn := by
    rw [← hring.slot_zero, ← hring.slot_length, hempty]
    rfl
  have hmiss : CAEvent.pipe.search s.traceQOut s = (false, s.traceQOut, s) := by
    have hnone : searchQ CATraceQItem.visitPipe s.traceQSize s.traceQOut s =
        (none, s.traceQOut, s) := by
      rw [hsize, searchQ, if_pos hend]
    rw [CAEvent.search, hnone]
    rfl
  obtain ⟨s₁, hsame, hwords₁, hread⟩ := hwords.parseNextVectorRecord (by decide) (by decide +kernel)
  have hroom : s.roomQ = 511 := by rw [hring.roomQ_eq, hempty, hsize, List.length_nil]
  obtain ⟨caTraceQ, traceQIn, hadd, hring', hcontents⟩ :=
    (hring.of_same hsame).addQ_of_room (fileWord startsFile 0) (BitVec.ofNat 32 (5 * 0))
      (by rw [roomQ_of_same hsame, hroom]; decide) packQ
  have hrun := hread caTraceQ traceQIn hadd
  refine ⟨s, _, ⟨.pipe, _, _, _, s, hcalled, hmiss⟩, by rw [hroom]; decide, hrun, ?_,
    hwords₁.of_queue rfl _ _, hsame.traceQSize.trans hsize, ?_⟩
  · have hreached := hcalled.read hmiss hrun
    have hfirst : s.traceQIn = shift s₁.traceQSize s₁.traceQOut 0 := by
      rw [hsame.traceQSize, hsame.traceQOut, ← slot, hring.slot_zero, hend]
    rw [hfirst] at hreached
    exact hreached
  · change contents { s₁ with caTraceQ := caTraceQ, traceQIn := traceQIn } = _
    rw [hcontents, contents_of_same hsame, hempty, fileWord_startsFile 0 (by decide)]
    rfl

theorem startsFile_pipe (garbage : ℕ → CATraceQItem) : ∃ s,
    Reached startsFile garbage (.searching [.vector .start, .vector .arith] (s.slot 0)) s ∧
      WordsRead startsFile 4 1 s ∧
    s.traceQSize = 512 ∧ s.contents = [⟨0, 0, 0, 0, 0, 0⟩, ⟨1, CAVFLAG_VISTART, 0, 0, 0, 0⟩] := by
  obtain ⟨-, s, -, -, -, hreached, hwords, hsize, hcontents⟩ := startsFile_first garbage
  have hlength : 0 < s.contents.length := by rw [hcontents]; decide
  have hget : s.contents[0] = ⟨0, CAVFLAG_V0, 0, 0, 0, 0⟩ := by
    simp only [hcontents, List.getElem_cons_zero]
  have hvisit : (s.contents[0]).visitPipe = (⟨0, 0, 0, 0, 0, 0⟩, some (CAFLAG_PIPE0, 0)) := by
    rw [hget]; rfl
  obtain ⟨caTraceQ, hfound, hset⟩ :=
    hreached.ring.searchQ_found (n := 511) hlength (congrArg Prod.snd hvisit)
  have hsearch : CAEvent.pipe.search (s.slot 0) s =
      (true, s.slot 0, { s with caTraceQ := caTraceQ }) := by
    rw [CAEvent.search, (congrArg (fun n => searchQ CATraceQItem.visitPipe n (s.slot 0) s)
      hsize).trans hfound]
    rfl
  refine ⟨{ s with caTraceQ := caTraceQ }, hreached.found hsearch, hwords.of_queue hwords.status
    caTraceQ s.traceQIn, hsize, ?_⟩
  rw [hset, hvisit, hcontents]
  rfl

theorem filling_zero (garbage : ℕ → CATraceQItem) : ∃ s, Filling garbage 0 2 s := by
  obtain ⟨s, hreached, hwords, hsize, hcontents⟩ := startsFile_pipe garbage
  have hlength : s.contents.length = 2 := by rw [hcontents]; rfl
  have hget : s.contents[0] = ⟨0, 0, 0, 0, 0, 0⟩ := by simp only [hcontents, List.getElem_cons_zero]
  have hvisit : (s.contents[0]).visitVector .start = (⟨0, 0, 1, 0, 0, 0⟩, none) := by rw [hget]; rfl
  obtain ⟨caTraceQ, hnext, hset⟩ :=
    hreached.ring.searchQ_next (n := 511) (by omega) (congrArg Prod.snd hvisit)
  rw [hvisit, hcontents] at hset
  have hring : Ring { s with caTraceQ := caTraceQ } :=
    ⟨hreached.ring.traceQOut, hreached.ring.traceQIn⟩
  have hlength₁ : 1 < (contents { s with caTraceQ := caTraceQ }).length := by rw [hset]; decide
  have hget₁ : (contents { s with caTraceQ := caTraceQ })[1] =
      ⟨1, CAVFLAG_VISTART, 0, 0, 0, 0⟩ := by
    simp only [hset, List.set_cons_zero, List.getElem_cons_succ, List.getElem_cons_zero]
  have hvisit₁ : ((contents { s with caTraceQ := caTraceQ })[1]).visitVector .start =
    (⟨1, 0, 1, 0, 0, 0⟩, some 1) := by rw [hget₁]; rfl
  obtain ⟨caTraceQ', hfound, hset₁⟩ :=
    hring.searchQ_found (n := 510) hlength₁ (congrArg Prod.snd hvisit₁)
  rw [hvisit₁, hset] at hset₁
  have hsearch : (CAEvent.vector .start).search (s.slot 0) s =
      (true, s.slot 1, { s with caTraceQ := caTraceQ' }) := by
    rw [CAEvent.search, (congrArg (fun n => searchQ (CATraceQItem.visitVector .start) n (s.slot 0)
      s) hsize).trans (hnext.trans hfound)]
    rfl
  have hreached' := hreached.found hsearch
  have hplace : (CAEvent.vector .start).next { s with caTraceQ := caTraceQ' } (s.slot 1) =
    s.slot 2 := hring.next_slot 1
  rw [hplace] at hreached'
  have hall : contents { s with caTraceQ := caTraceQ' } =
    [⟨0, 0, 1, 0, 0, 0⟩, ⟨1, 0, 1, 0, 0, 0⟩] := hset₁
  refine ⟨{ s with caTraceQ := caTraceQ' }, hreached', hwords.of_queue hwords.status caTraceQ'
    s.traceQIn, hsize, ?_, ?_⟩
  · rw [records, hall]
    rfl
  · rw [hall]
    rfl

theorem exists_filling (garbage : ℕ → CATraceQItem) {m : ℕ} (hm : m ≤ 101) :
    ∃ j s, Filling garbage m j s := by
  induction m with
  | zero => exact ⟨2, filling_zero garbage⟩
  | succ m ih =>
    obtain ⟨j, s, h⟩ := ih (Nat.le_of_succ_le hm)
    exact h.step (Nat.le_of_lt_succ hm)

/-- The next word is queued after the queue has been packed. -/
theorem startsFile_packed (garbage : ℕ → CATraceQItem) : ∃ s start s', ReadsIn startsFile garbage s ∧ s.roomQ < 5 ∧
    parseNextVectorRecord packQ s = .ok start s' := by
  obtain ⟨j, s, h⟩ := exists_filling garbage (Nat.le_refl 101)
  obtain ⟨last, caTraceQ, hsearch, hrecords⟩ := h.search
  have hring := h.reached.ring.of_search hsearch
  have hwords := h.words.of_queue h.words.status caTraceQ s.traceQIn
  have hsize : traceQSize { s with caTraceQ := caTraceQ } = 512 := h.traceQSize
  have hlength : (contents { s with caTraceQ := caTraceQ }).length = 507 := by
    rw [← length_records, hrecords, length_records, h.length]
  have hfull : ((contents { s with caTraceQ := caTraceQ }).filter isFull).length = 505 := by
    have hfilter : (contents { s with caTraceQ := caTraceQ }).filter isFull =
        (contents { s with caTraceQ := caTraceQ }).filter ((fun r : Byte => decide (r ≠ 0)) ∘
          (·.record)) := rfl
    have hleft : (records { s with caTraceQ := caTraceQ }).filter (fun r => decide (r ≠ 0)) =
        List.replicate 505 CAVFLAG_VISTART := by
      rw [hrecords, h.records, List.filter_cons_of_neg (by decide), List.filter_cons_of_neg
        (by decide)]
      exact List.filter_replicate_of_pos (by decide)
    rw [hfilter, ← List.length_map (f := (·.record)), ← List.filter_map]
    change ((records { s with caTraceQ := caTraceQ }).filter fun r => decide (r ≠ 0)).length = 505
    rw [hleft, List.length_replicate]
  have hroom : roomQ { s with caTraceQ := caTraceQ } = 4 := by rw [hring.roomQ_eq, hlength, hsize]
  generalize ({ s with caTraceQ := caTraceQ } : CATrace) = s₀ at hsearch hring hwords hsize hfull hroom
  obtain ⟨s₁, hsame, -, hread⟩ := hwords.parseNextVectorRecord (by decide) (by decide +kernel)
  have hring₁ := hring.of_same hsame
  obtain ⟨caTraceQ₁, traceQIn₁, hpacked, hless, hadd⟩ :=
    hring₁.addQ_of_full (fileWord startsFile (101 + 1)) (BitVec.ofNat 32 (5 * (101 + 1)))
      (by rw [roomQ_of_same hsame, hroom]; decide)
  rw [contents_of_same hsame, hfull] at hless
  have hspace : 5 ≤ roomQ { s₁ with caTraceQ := caTraceQ₁, traceQIn := traceQIn₁ } := by
    have hsize₁ : traceQSize { s₁ with caTraceQ := caTraceQ₁, traceQIn := traceQIn₁ } = 512 :=
      hsame.traceQSize.trans hsize
    have hspare := hpacked.roomQ_eq
    omega
  obtain ⟨caTraceQ₂, traceQIn₂, hqueued, -⟩ := hpacked.addQ_of_room (fileWord startsFile (101 + 1))
    (BitVec.ofNat 32 (5 * (101 + 1))) hspace packQ
  rw [if_neg (Nat.not_lt.mpr hspace), hqueued] at hadd
  exact ⟨s₀, _, _, ⟨.vector .arith, [], _, last, s, h.reached, hsearch⟩, by rw [hroom]; decide,
    hread caTraceQ₂ traceQIn₂ hadd⟩

/-! ### What a reader finds -/

/-- **New groups are found** where the queue is not packed for them, whatever
has been consumed before. -/
theorem deliversNewRecords_iff (h : ReadsIn file garbage s) {start : ℕ} {s' : CATrace}
    (hrun : parseNextVectorRecord packQ s = .ok start s') :
    Delivers s start s' ↔ 5 ≤ s.roomQ := by
  obtain ⟨e, es, QStart, last, s₀, hreached, hsearch⟩ := h
  exact (hreached.ring.of_search hsearch).delivers_iff hrun

/-- The first word of a file; and the first call leaves a state in which more words are read. -/
theorem deliversNewRecords_first :
    (∃ s start s', ReadsIn startsFile (fun _ => ⟨0, 0, 0, 0, 0, 0⟩) s ∧
      parseNextVectorRecord packQ s = .ok start s' ∧ Delivers s start s') ∧
    ∀ info a s', consume .vectArith info (init .vector startsFile fun _ => ⟨0, 0, 0, 0, 0, 0⟩) =
      .ok a s' →
      Reached startsFile (fun _ => ⟨0, 0, 0, 0, 0, 0⟩) .idle s' := by
  constructor
  · obtain ⟨s, s', hreads, hroom, hrun, -⟩ := startsFile_first fun _ => ⟨0, 0, 0, 0, 0, 0⟩
    exact ⟨s, s.traceQIn, s', hreads, hrun, (deliversNewRecords_iff hreads hrun).mpr hroom⟩
  · intro info a s' hrun
    exact (leaves_consume .vectArith info).of_ok (.made (by decide +kernel)) hrun

/-- A word that is queued while two entries in front of the queue are empty. -/
theorem not_deliversNewRecords :
    ¬ ∀ (file : List Byte) (garbage : ℕ → CATraceQItem) (s : CATrace) (start : ℕ) (s' : CATrace),
    ReadsIn file garbage s → parseNextVectorRecord packQ s = .ok start s' →
      Delivers s start s' := by
  intro hall
  obtain ⟨s, start, s', hreads, hroom, hrun⟩ := startsFile_packed fun _ => ⟨0, 0, 0, 0, 0, 0⟩
  have hdelivers := hall _ _ s start s' hreads hrun
  obtain ⟨e, es, QStart, last, s₀, hreached, hsearch⟩ := hreads
  rw [(hreached.ring.of_search hsearch).delivers_iff hrun] at hdelivers
  omega

end CATrace

end TraceDecoder
