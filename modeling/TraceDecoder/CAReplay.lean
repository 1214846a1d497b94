import TraceDecoder.CAVector

/-!
# A vector trace is matched in order

The calls of `consume` on a vector trace match its events as `matchAll` does, as long as the queue
has not to be packed.
-/

namespace TraceDecoder.CATrace

open RingIndex EStateM

variable {b : List Byte} {k W : ℕ} {item : ℕ → CATraceQItem} {groups : List ℕ} {s : CATrace}
    {u : Unconsumed} {m : ℕ}

/-- Entries that are to be skipped are skipped, up to the end of the queue. -/
theorem Queued.seek (h : Queued item groups s) (skip : CATraceQItem → Bool) {n j : ℕ}
    (hj : j ≤ groups.length) (hn : groups.length ≤ j + n) :
    ∃ l, j ≤ l ∧ l ≤ groups.length ∧ s.seek skip n (shift 512 s.traceQOut j) =
      shift 512 s.traceQOut l ∧
      ∀ j' g, j ≤ j' → j' < l → groups[j']? = some g → skip (item g) = true := by
  induction n generalizing j with
  | zero => exact ⟨j, Nat.le_refl j, hj, rfl, fun j' g hge hlt => by omega⟩
  | succ n ih =>
    rw [CATrace.seek]
    split_ifs with hskip
    · obtain ⟨hne, hskip⟩ := hskip
      have hlt : j < groups.length := by
        rw [Ne, h.shift_eq_traceQIn_iff hj] at hne
        omega
      obtain ⟨l, hle, hl, heq, hskipped⟩ := ih (show j + 1 ≤ groups.length from hlt) (by omega)
      refine ⟨l, by omega, hl, by rw [h.next_shift, heq], fun j' g hge hlt' hg => ?_⟩
      by_cases hj' : j' = j
      · rw [hj'] at hg
        rwa [h.queue j g hg] at hskip
      · exact hskipped j' g (by omega) hlt' hg
    · exact ⟨j, Nat.le_refl j, hj, rfl, fun j' g hge hlt => by omega⟩

theorem Holds.dropEmpty (h : Holds b k u m groups s) :
    ∃ groups', Holds b k u m groups' s.dropEmpty := by
  obtain ⟨item, W, htracks, hdescribes⟩ := h
  have hfits := htracks.queued.fits
  obtain ⟨l, -, hl, heq, hempty⟩ := htracks.queued.seek (fun x => x.record = 0) (Nat.zero_le _)
    (show groups.length ≤ 0 + s.traceQSize by rw [htracks.queued.size]; omega)
  rw [shift, Nat.add_zero, Nat.mod_eq_of_lt htracks.queued.out] at heq
  have hstate : s.dropEmpty = { s with traceQOut := shift 512 s.traceQOut l } := by
    rw [CATrace.dropEmpty, heq]
  obtain ⟨R, hloaded, hoffset, hW⟩ := htracks.words
  refine ⟨groups.drop l, item, W, ?_, hdescribes⟩
  rw [hstate]
  refine ⟨htracks.caType, htracks.queued.drop hl,
    ⟨R, ⟨hloaded.1, hloaded.2, hloaded.3, hloaded.4, hloaded.5, hloaded.6, hloaded.7⟩, hoffset, hW⟩,
      htracks.sorted.drop, fun g hg => htracks.read g (List.mem_of_mem_drop hg),
      fun g hg hmem => ?_, htracks.fresh⟩
  by_cases hqueued : g ∈ groups
  · obtain ⟨j, hj, hget⟩ := List.getElem_of_mem hqueued
    have hlt : j < l := by
      by_contra hge
      refine hmem (List.mem_iff_getElem?.mpr ⟨j - l, ?_⟩)
      rw [List.getElem?_drop, show l + (j - l) = j by omega, List.getElem?_eq_getElem hj, hget]
    exact of_decide_eq_true (hempty j g (Nat.zero_le _) hlt
      (by rw [List.getElem?_eq_getElem hj, hget]))
  · exact htracks.dropped g hg hqueued

/-- **A call** matches its instruction and reports what it is matched with, or fails. -/
theorem consumeWith_holds (hk : 160 * k ≤ 2 ^ 32) (h : Holds b k u m groups s) (iType : InstType)
    (info : CAInfo) : (∃ e s', consumeWith noPack iType info s = .error e s') ∨
      ∃ info' found u' m' groups' s', consumeWith noPack iType info s = .ok info' s' ∧
        matchInst k iType u = some (found, u') ∧ Reports found info' ∧
          Holds b k u' m' groups' s' := by
  have htracks := h
  obtain ⟨item, W, htracks, -⟩ := htracks
  obtain ⟨R, hloaded, -⟩ := htracks.words
  rw [consumeWith, read_bind_run, hloaded.status, onlyIf, if_neg (by decide), bind_ok (p := pure ())
    (s := s) rfl, read_bind_run, htracks.caType]
  dsimp only
  rw [read_bind_run]
  rcases consumeCAPipe_holds h with ⟨e, s', heq⟩ | ⟨pipe, g, bits, front, back, i, s₁, heq, htake,
    hholds, hat⟩
  · exact .inl ⟨e, s', bind_error heq⟩
  have hg : g < 160 * k := by
    rw [takePipe, Option.map_eq_some_iff] at htake
    obtain ⟨g', hnext, hpair⟩ := htake
    obtain ⟨-, hlt, -⟩ := nextPosition_eq_some_iff.mp hnext
    rwa [← (Prod.mk.inj (Prod.mk.inj hpair).1).2]
  rw [bind_ok heq]
  dsimp only
  rcases consumeEvents_holds hk hholds hat hg iType pipe info with
    ⟨e, s', heq⟩ | ⟨info', found, u', groups', s₂, heq, hmatch, hreports, hholds'⟩
  · exact .inl ⟨e, s', bind_error heq⟩
  obtain ⟨groups'', hdrop⟩ := hholds'.dropEmpty
  refine .inr ⟨info', found, u', g, groups'', s₂.dropEmpty, ?_, ?_, hreports, hdrop⟩
  · rw [bind_ok heq]
    rfl
  · rw [matchInst, htake]
    exact hmatch

/-! ### Runs -/

/-- The calls for a sequence of instructions, each with what its parameters are before. -/
def consumeAll (packQ : CAM Unit) : List (InstType × CAInfo) → CAM (List CAInfo)
  | [] => pure []
  | (iType, info) :: calls => do
    let info ← consumeWith packQ iType info
    let infos ← consumeAll packQ calls
    return info :: infos

theorem consumeAll_holds (hk : 160 * k ≤ 2 ^ 32) (h : Holds b k u m groups s)
    (calls : List (InstType × CAInfo)) : (∃ e s', consumeAll noPack calls s = .error e s') ∨
      ∃ infos found u' m' groups' s', consumeAll noPack calls s = .ok infos s' ∧
        matchAll k (calls.map Prod.fst) u = some (found, u') ∧ List.Forall₂ Reports found infos ∧
          Holds b k u' m' groups' s' := by
  induction calls generalizing u m groups s with
  | nil => exact .inr ⟨[], [], u, m, groups, s, rfl, rfl, .nil, h⟩
  | cons call calls ih =>
    rw [consumeAll]
    rcases consumeWith_holds hk h call.1 call.2 with ⟨e, s', heq⟩ | ⟨info, found, u₁, m₁, groups₁,
      s₁, heq, hmatch, hreports, hholds⟩
    · exact .inl ⟨e, s', bind_error heq⟩
    · rw [bind_ok heq]
      rcases ih hholds with ⟨e, s', heq⟩ | ⟨infos, rest, u₂, m₂, groups₂, s₂, heq, hrest,
        hall, hholds'⟩
      · exact .inl ⟨e, s', bind_error heq⟩
      · refine .inr ⟨info :: infos, found :: rest, u₂, m₂, groups₂, s₂, ?_, ?_, .cons hreports hall,
          hholds'⟩
        · rw [bind_ok heq]
          rfl
        · simp only [List.map_cons, matchAll, hmatch, hrest, Option.bind_eq_bind, Option.bind_some]
          rfl

/-- Where the queue has not to be packed, it does not matter how it would be. -/
theorem within_checked {α : Type} {p q : CAM α} (h : Within p q) :
    Within (checked p) (checked q) := by
  intro s a s' hrun
  cases hp : p s with
  | error e t =>
    rw [checked_error hp] at hrun
    cases hrun
  | ok a' t =>
    rw [checked_ok hp] at hrun
    cases hrun
    exact checked_ok (h _ _ _ hp)

section
variable (packQ : CAM Unit)

theorem within_addQ (data t : BitVec 32) : Within (addQ noPack data t) (addQ packQ data t) :=
  (Within.refl _).bind fun _ => (Within.onlyIf (.throw _ _)).bind fun _ => .refl _

theorem within_parseNextVectorRecord :
    Within (parseNextVectorRecord noPack) (parseNextVectorRecord packQ) :=
  (Within.refl _).bind fun _ => (Within.refl _).bind fun _ => (Within.refl _).bind
      fun _ => (Within.refl _).bind fun _ =>
    (within_checked (within_addQ packQ _ _)).bind fun _ => .refl _

theorem within_searchTrace {α : Type} (visit : CATraceQItem → CATraceQItem × Option α)
    (n QStart : ℕ) :
    Within (searchTrace noPack visit n QStart) (searchTrace packQ visit n QStart) := by
  induction n generalizing QStart with
  | zero => exact .refl _
  | succ n ih =>
    intro s a s' hrun
    rw [searchTrace] at hrun ⊢
    dsimp only at hrun ⊢
    cases hsearch : searchQ visit s.traceQSize QStart s with
    | mk found rest =>
      simp only [hsearch] at hrun ⊢
      cases found with
      | some x => exact hrun
      | none => exact (within_checked (within_parseNextVectorRecord packQ)).bind ih rest.2 a s' hrun

theorem within_consumeCAPipe (QStart : ℕ) :
    Within (consumeCAPipe noPack QStart) (consumeCAPipe packQ QStart) :=
  (Within.refl _).bind fun _ => (Within.refl _).bind fun _ => (Within.refl _).bind
    fun _ => within_searchTrace packQ _ _ _

theorem within_consumeCAVector (QStart : ℕ) (type : CAVectorTraceFlags) :
    Within (consumeCAVector noPack QStart type) (consumeCAVector packQ QStart type) := by
  refine (Within.refl _).bind fun _ => (Within.refl _).bind fun _ => (Within.refl _).bind
    fun _ => ?_
  dsimp only
  split_ifs
  all_goals
    refine Within.bind ?_ fun _ => (Within.refl _).bind fun _ => (Within.refl _).bind fun _ =>
      (within_searchTrace packQ _ _ _).bind fun _ => .refl _
  · exact within_checked (within_parseNextVectorRecord packQ)
  · exact .refl _

theorem within_consumeFinishes (types : List CAVectorTraceFlags) (qStart : ℕ) (cycles : BitVec 32) :
    Within (consumeFinishes noPack qStart cycles types)
      (consumeFinishes packQ qStart cycles types) := by
  induction types generalizing qStart cycles with
  | nil => exact .refl _
  | cons type types ih => exact (within_checked (within_consumeCAVector packQ qStart type)).bind fun _ => ih _ _

theorem within_consumeEvents (qStart : ℕ) (iType : InstType) (info : CAInfo) :
    Within (consumeEvents noPack qStart iType info) (consumeEvents packQ qStart iType info) := by
  rw [consumeEvents, consumeEvents]
  cases finishTypes iType with
  | nil => exact .refl _
  | cons type types =>
    exact (within_checked (within_consumeCAVector packQ _ _)).bind
        fun _ => (within_checked (within_consumeCAVector packQ _ _)).bind fun _ =>
      (within_consumeFinishes packQ types _ _).bind fun _ => .refl _

theorem within_consumeWith (iType : InstType) (info : CAInfo) :
    Within (consumeWith noPack iType info) (consumeWith packQ iType info) := by
  refine (Within.refl _).bind fun _ => (Within.refl _).bind fun _ => (Within.refl _).bind
    fun caType => ?_
  cases caType with
  | none => exact .refl _
  | instruction => exact .refl _
  | vector =>
    exact (Within.refl _).bind fun _ => (within_checked (within_consumeCAPipe packQ _)).bind
        fun _ =>
      (within_consumeEvents packQ _ iType _).bind fun _ => .refl _

theorem within_consumeAll (calls : List (InstType × CAInfo)) :
    Within (consumeAll noPack calls) (consumeAll packQ calls) := by
  induction calls with
  | nil => exact .refl _
  | cons call calls ih => exact (within_consumeWith packQ call.1 call.2).bind fun _ => ih.bind fun _ => .refl _

end

theorem holds_init (garbage : ℕ → CATraceQItem) (hk : 1 ≤ k) (hb : b.length = 128 * k) :
    Holds b k (unread b) 0 [] (init .vector b garbage) := by
  obtain ⟨s, hs, hloaded, hsame, hoffset⟩ := parseNextCATraceRec_eq (b := b) (k := k) (R := 0)
    (s := ⟨.ok, .vector, b, 0, 0, 0, ⟨0, 0, fun _ => 0⟩, 512, 0, 0, garbage⟩) rfl rfl hb rfl
      (absurd rfl) hk
  have hinit : init .vector b garbage = { s with status := .ok, startAddr := s.catr.address } := by
    rw [init, if_neg (by decide)]
    simp only [if_true, hs]
  rw [hinit]
  refine ⟨freshItem b, 0,
    ⟨hsame.caType, ⟨hsame.traceQSize, ?_, by decide, ?_, fun j g hg => by simp at hg⟩,
      ⟨0, ⟨rfl, hloaded.caBuffer, hb, hloaded.caBufferIndex, hloaded.blockRecNum, hk, hloaded.data⟩,
      ?_, ?_⟩, .nil,
    fun g hg => absurd hg List.not_mem_nil, fun g hg => absurd hg (Nat.not_lt_zero g),
      fun g _ => rfl⟩,
    ⟨fun g => rfl, fun g => rfl, fun g _ => rfl, fun g hg => absurd hg (Nat.not_lt_zero g)⟩⟩
  · rw [hsame.traceQOut]
    exact Nat.succ_pos 511
  · rw [hsame.traceQIn, hsame.traceQOut]
    rfl
  · rw [hoffset]
    exact Nat.zero_le _
  · rw [hoffset]

theorem consumeAll_of_empty (garbage : ℕ → CATraceQItem) {calls : List (InstType × CAInfo)}
    {infos : List CAInfo}
    (hrun : consumeAll noPack calls (init .vector [] garbage) = .ok infos s) :
    calls = [] ∧ infos = [] := by
  cases calls with
  | nil =>
    obtain ⟨rfl, -⟩ := Result.ok.injEq .. ▸ hrun
    exact ⟨rfl, rfl⟩
  | cons call calls =>
    have hstatus : (init .vector [] garbage).status = .eof := rfl
    have hcall : consumeWith noPack call.1 call.2 (init .vector [] garbage) =
        .error .eof (init .vector [] garbage) := by
      rw [consumeWith, read_bind_run, hstatus]
      rfl
    rw [consumeAll, bind_error hcall] at hrun
    cases hrun

/-- **The calls match the trace in order.** If all calls succeed and a word is queued only where
there is room for it, the instructions are matched with the events of the trace, their parameters
report what they are matched with, and all other bits are still unconsumed. The size of the buffer
is an `int`. -/
theorem consumeAll_matches (garbage : ℕ → CATraceQItem) (hb : b.length = 128 * k)
    (hint : b.length < 2 ^ 31)
    {calls : List (InstType × CAInfo)} {infos : List CAInfo}
    (hrun : consumeAll noPack calls (init .vector b garbage) = .ok infos s) :
    consumeAll packQ calls (init .vector b garbage) = .ok infos s ∧
      ∃ found u, matchAll k (calls.map Prod.fst) (unread b) = some (found, u) ∧
        List.Forall₂ Reports found infos ∧
        (1 ≤ k → ∃ m groups, Holds b k u m groups s) := by
  refine ⟨within_consumeAll packQ calls _ _ _ hrun, ?_⟩
  by_cases hk : 1 ≤ k
  · rcases consumeAll_holds (by omega) (holds_init garbage hk hb) calls with
      ⟨e, s', heq⟩ | ⟨infos', found, u, m, groups, s', heq, hmatch, hall, hholds⟩
    · rw [hrun] at heq
      cases heq
    · rw [hrun, Result.ok.injEq] at heq
      obtain ⟨rfl, rfl⟩ := heq
      exact ⟨found, u, hmatch, hall, fun _ => ⟨m, groups, hholds⟩⟩
  · obtain rfl : b = [] := List.length_eq_zero_iff.mp (by omega)
    obtain ⟨rfl, rfl⟩ := consumeAll_of_empty garbage hrun
    exact ⟨[], unread [], rfl, .nil, fun h => absurd h hk⟩

/-- A record with an arithmetic instruction and a scalar one in its first word; a store begins there
and ends in the second word. -/
def threeInstRecord : List Byte :=
  [0x00, 0x80, 0x52, 0x28] ++ [0x00, 0x00, 0x08, 0x00] ++ List.replicate 120 0

theorem consumeAll_matches_threeInst :
    let garbage : ℕ → CATraceQItem := fun _ => ⟨0, 0, 0, 0, 0, 0⟩
    let none : CAInfo := ⟨0, 0, 0, 0, 0, 0, 0, 0⟩
    let calls : List (InstType × CAInfo) :=
      [(.vectArith, none), (.scaler, none), (.vectStore, none)]
    let infos : List CAInfo :=
      [⟨CAFLAG_PIPE0 ||| (CAFLAG_VSTART ||| CAFLAG_VARITH), 0, 0, 1, 1, 1, 0, 0⟩,
        ⟨CAFLAG_PIPE1, 1, 0, 0, 0, 0, 0, 0⟩, ⟨CAFLAG_PIPE0 ||| (CAFLAG_VSTART ||| CAFLAG_VSTORE), 2,
        2, 6, 1, 0, 0, 1⟩]
    let s := (consumeAll noPack calls (init .vector threeInstRecord garbage)).state
    consumeAll packQ calls (init .vector threeInstRecord garbage) = .ok infos s ∧
      ∃ found u, matchAll 1 (calls.map Prod.fst) (unread threeInstRecord) = some (found, u) ∧
        List.Forall₂ Reports found infos ∧
          (1 ≤ 1 → ∃ m groups, Holds threeInstRecord 1 u m groups s) :=
  consumeAll_matches (k := 1) _ rfl (by decide +kernel) (Result.eq_ok_of_value? (by decide +kernel))

end TraceDecoder.CATrace
