import TraceDecoder.CALeft

/-!
# The events of an instruction

The calls for the events of an instruction take them as `matchEvents` does, or fail.
-/

namespace TraceDecoder.CATrace

open RingIndex EStateM CATraceQItem

variable {b : List Byte} {k W : ℕ} {item : ℕ → CATraceQItem} {groups : List ℕ} {s : CATrace}

def Holds (b : List Byte) (k : ℕ) (u : Unconsumed) (m : ℕ) (groups : List ℕ) (s : CATrace) : Prop :=
  ∃ item W, Tracks b k item groups W s ∧ Describes u m item

theorem checked_ok {α : Type} {p : CAM α} {a : α} {s' : CATrace} (h : p s = .ok a s') :
    checked p s = .ok a s' := by rw [checked, h]

theorem checked_error {α : Type} {p : CAM α} {e : DQErr} {s' : CATrace} (h : p s = .error e s') :
    checked p s = .error e { s' with status := e } := by rw [checked, h]

theorem At.of_tracks {front back : List ℕ} {g : ℕ} (h : Tracks b k item (front ++ g :: back) W s) :
    At g front (g :: back) s (shift 512 s.traceQOut front.length) ∧
      At (g + 1) (front ++ [g]) back s (shift 512 s.traceQOut (front ++ [g]).length) := by
  obtain ⟨-, hback, hfront⟩ := List.pairwise_append.mp h.sorted
  have hlt : ∀ g' ∈ front, g' < g := fun g' hg' => hfront g' hg' g List.mem_cons_self
  have hgt : ∀ g' ∈ back, g < g' := fun g' hg' => List.rel_of_pairwise_cons hback hg'
  refine ⟨⟨rfl, hlt, fun g' hg' => ?_⟩, ⟨rfl, fun g' hg' => ?_, hgt⟩⟩
  · rcases List.mem_cons.mp hg' with rfl | hmem
    · exact Nat.le_refl _
    · exact (hgt g' hmem).le
  · rcases List.mem_append.mp hg' with hmem | hmem
    · exact Nat.lt_succ_of_lt (hlt g' hmem)
    · rw [List.mem_singleton.mp hmem]
      exact Nat.lt_succ_self g

variable {u : Unconsumed} {m g₀ i : ℕ} {front back : List ℕ}

/-- `consumeCAPipe` takes the oldest pipe bit, or the call fails. -/
theorem consumeCAPipe_holds (h : Holds b k u m groups s) :
    (∃ e s', checked (consumeCAPipe noPack s.traceQOut) s = .error e s') ∨
      ∃ pipe g bits front back i s', checked (consumeCAPipe noPack s.traceQOut) s = .ok
        ((pipe, BitVec.ofNat 32 g), i) s' ∧
        takePipe k u.bits = some ((pipe, g), bits) ∧ Holds b k ⟨bits, u.starts⟩ g
          (front ++ g :: back) s' ∧ At g front (g :: back) s' i := by
  obtain ⟨item, W, htracks, hdescribes⟩ := h
  have hat : At 0 [] groups s s.traceQOut :=
    ⟨(Nat.mod_eq_of_lt htracks.queued.out).symm, fun g hg => absurd hg List.not_mem_nil,
      fun g _ => Nat.zero_le g⟩
  have hrun : consumeCAPipe noPack s.traceQOut s = searchTrace noPack visitPipe (searchFuel s)
      s.traceQOut s := by
    rw [consumeCAPipe, read_bind_run, htracks.queued.size]
    rfl
  rcases searchTrace_found findsInRecord_visitPipe htracks hat (Nat.zero_le _) (searchFuel s) with
    ⟨e, s', heq⟩ | ⟨found, i, g, front, back, W', s', heq, hfound⟩
  · exact .inl ⟨e, _, checked_error (hrun.trans heq)⟩
  · obtain ⟨htake, hcycle, hleft⟩ := hdescribes.takePipe hfound
    have hat' := (At.of_tracks hfound.tracks).1
    rw [← hfound.index] at hat'
    refine .inr ⟨found.1, g, _, front, back, i, s', ?_, htake, ⟨_, W', hfound.tracks, hleft⟩, hat'⟩
    rw [← hcycle]
    exact checked_ok (hrun.trans heq)

/-- `consumeCAVector` finds the first group from its start on, or the call fails. The counts are
those of the first entry. -/
theorem consumeCAVector_found (type : CAVectorTraceFlags) (h : Tracks b k item (front ++ back) W s)
    (hat : At g₀ front back s i) (hg₀ : g₀ ≤ 5 * W) :
    (∃ e s', consumeCAVector noPack i type s = .error e s') ∨
      ∃ cycle infos i' g front' back' W' s',
        consumeCAVector noPack i type s = .ok
          (cycle, infos, shift 512 s'.traceQOut (front' ++ [g]).length) s' ∧
          Found (visitVector type) b k item g₀ s cycle i' g front' back' W' s' ∧
          ∀ g₁ ∈ back.head?, infos = (item g₁).infos.count type := by
  have hvisit := findsInRecord_visitVector type
  have hafter : ∀ {cycle i' g front' back' W' s'}, Found (visitVector type) b k item g₀ s cycle i' g
      front' back' W' s' → s'.next i' = shift 512 s'.traceQOut (front' ++ [g]).length :=
        fun {_ _ _ _ _ _ _} hfound => by
    rw [hfound.index, hfound.tracks.queued.next_shift, List.length_append]
    rfl
  have hfits := h.queued.fits
  rw [List.length_append] at hfits
  rw [consumeCAVector, read_bind_run, h.queued.size, onlyIf, if_neg (by decide)]
  rw [bind_ok (p := pure ()) (s := s) rfl, read_bind_run, hat.index]
  cases back with
  | nil =>
    have hend : shift 512 s.traceQOut front.length = s.traceQIn := by
      rw [h.queued.traceQIn, List.append_nil]
    have hempty : ∀ g ∈ front ++ [], g ∈ [] ↔ g₀ ≤ g ∧ g < 5 * W := fun g hg => by
      rw [List.append_nil] at hg
      have hlt := hat.front g hg
      simp only [List.not_mem_nil, false_iff, not_and, not_lt]
      omega
    have hnone : nextPosition (fun g => (visitVector type (item g)).2.isSome) g₀ (5 * W) = none :=
        nextPosition_eq_none_iff.mpr fun q hq hqW =>
      h.not_found hvisit hqW fun hmem => absurd ((hempty q hmem).mpr ⟨hq, hqW⟩) List.not_mem_nil
    have hvisited : Tracks b k (visitedIn (visitVector type) g₀ (5 * W) item) (front ++ []) W s :=
      h.visited hvisit (Nat.le_refl _) hempty (fun g hg => absurd hg List.not_mem_nil)
        (by rw [visited_nil]; exact h.queued)
    rw [if_pos hend]
    rcases parseNextVectorRecord_leaves hvisited with ⟨e, s', heq⟩ | ⟨w, s', hw, heq, hout,
      hlt, htracks⟩
    · exact .inl ⟨e, { s' with status := e }, bind_error (checked_error heq)⟩
    · have hat' : At (5 * W) (front ++ []) (positions (nonEmpty b) (5 * W) (5 * (w + 1))) s'
          (shift 512 s.traceQOut (front ++ []).length) :=
        ⟨by rw [hout], fun g hg => h.read g hg, fun g hg => (mem_positions.mp hg).1⟩
      rw [bind_ok (checked_ok heq)]
      dsimp only
      rw [read_bind_run, read_bind_run]
      rcases searchTrace_found hvisit htracks hat' (by omega) (searchFuel s') with
        ⟨e, s'', heq⟩ | ⟨cycle, i', g, front', back', W', s'', heq, hfound⟩
      · exact .inl ⟨e, s'', bind_error heq⟩
      · have hfound' := hfound.of_read (s := s) hg₀ h.words_le hnone hout
        refine .inr ⟨cycle, (s'.caTraceQ (shift 512 s.traceQOut (front ++ []).length)).infos.count
          type, i', g, front', back', W', s'', ?_, hfound', fun g' hg' => by cases hg'⟩
        rw [bind_ok heq, ← hafter hfound']
        rfl
  | cons g₁ rest =>
    have hne : shift 512 s.traceQOut front.length ≠ s.traceQIn := fun heq => by
      rw [h.queued.shift_eq_traceQIn_iff (by simp)] at heq
      simp at heq
    have hfirst : (front ++ g₁ :: rest)[front.length]? = some g₁ := by
      rw [List.getElem?_append_right (Nat.le_refl _), Nat.sub_self]
      rfl
    rw [if_neg hne, bind_ok (p := pure _) (s := s) rfl]
    dsimp only
    rw [read_bind_run, read_bind_run, h.queued.queue _ _ hfirst, ← hat.index]
    rcases searchTrace_found hvisit h hat hg₀ (searchFuel s) with
      ⟨e, s', heq⟩ | ⟨cycle, i', g, front', back', W', s', heq, hfound⟩
    · exact .inl ⟨e, s', bind_error heq⟩
    · refine .inr ⟨cycle, (item g₁).infos.count type, i', g, front', back', W', s', ?_, hfound,
        fun g' hg' => ?_⟩
      · rw [bind_ok heq, ← hafter hfound]
        rfl
      · rw [Option.mem_some_iff.mp hg']

/-- The start of a search is not behind the words that have been read. -/
theorem Tracks.le_words {g : ℕ} (h : Tracks b k item (front ++ g :: back) W s) : g + 1 ≤ 5 * W :=
  h.read g (List.mem_append_right _ List.mem_cons_self)

/-- The call for the start event takes the oldest from the group of the pipe bit
on and tells the depth. -/
theorem consumeCAVector_start {g : ℕ} (h : Holds b k u g (front ++ g :: back) s)
    (hat : At g front (g :: back) s i) :
    (∃ e s', checked (consumeCAVector noPack i .start) s = .error e s') ∨
      ∃ start bits infos front' back' s',
        checked (consumeCAVector noPack i .start) s =
          .ok (BitVec.ofNat 32 start, infos, shift 512 s'.traceQOut (front' ++ [start]).length) s' ∧
        take k CAVectorTraceFlags.start.code g u.bits = some (start, bits) ∧
        infos.qInfo = BitVec.ofNat 8 (Unconsumed.depth ⟨bits, u.starts ++ [start]⟩ g) ∧
        Holds b k ⟨bits, u.starts ++ [start]⟩ g (front' ++ start :: back') s' := by
  obtain ⟨item, W, htracks, hdescribes⟩ := h
  have hle := htracks.le_words
  rcases consumeCAVector_found .start htracks hat (by omega) with
    ⟨e, s', heq⟩ | ⟨cycle, infos, i', start, front', back', W', s', heq, hfound, hinfos⟩
  · exact .inl ⟨e, _, checked_error heq⟩
  · obtain ⟨htake, hcycle, -⟩ := hdescribes.take hfound
    obtain ⟨hge, -, -⟩ := nextPosition_eq_some_iff.mp hfound.next
    refine .inr ⟨start, _, infos, front', back', s', ?_, htake, ?_,
      ⟨_, W', hfound.tracks, hdescribes.take_start hfound⟩⟩
    · rw [← hcycle]
      exact checked_ok heq
    · rw [hinfos g rfl, Unconsumed.depth, List.filter_append, List.length_append,
        List.filter_cons_of_pos (by simpa using hge), BitVec.ofNat_add]
      exact congrArg (· + 1) (hdescribes.depth g (Nat.le_refl g))

/-- The call for a finish event takes the oldest behind the event before. -/
theorem consumeCAVector_finish {type : CAVectorTraceFlags} (htype : type ≠ .start) {g : ℕ}
    (h : Holds b k u m (front ++ g :: back) s) :
    (∃ e s', checked (consumeCAVector noPack (shift 512 s.traceQOut (front ++ [g]).length) type) s =
      .error e s') ∨
      ∃ finish bits infos front' back' s',
        checked (consumeCAVector noPack (shift 512 s.traceQOut (front ++ [g]).length) type) s =
          .ok (BitVec.ofNat 32 finish, infos, shift 512 s'.traceQOut (front' ++ [finish]).length)
            s' ∧
        take k type.code (g + 1) u.bits = some (finish, bits) ∧
        Holds b k ⟨bits, u.starts⟩ m (front' ++ finish :: back') s' := by
  obtain ⟨item, W, htracks, hdescribes⟩ := h
  have hle := htracks.le_words
  have hat := (At.of_tracks htracks).2
  rw [List.append_cons] at htracks
  rcases consumeCAVector_found type htracks hat hle with
    ⟨e, s', heq⟩ | ⟨cycle, infos, i', finish, front', back', W', s', heq, hfound, -⟩
  · exact .inl ⟨e, _, checked_error heq⟩
  · obtain ⟨htake, hcycle, -⟩ := hdescribes.take hfound
    refine .inr ⟨finish, _, infos, front', back', s', ?_, htake,
      ⟨_, W', hfound.tracks, hdescribes.take_finish htype hfound⟩⟩
    rw [← hcycle]
    exact checked_ok heq

/-- The calls for the finish events; the cycle is that of the last. -/
theorem consumeFinishes_holds {types : List CAVectorTraceFlags} (htypes : .start ∉ types) {g : ℕ}
    (h : Holds b k u m (front ++ g :: back) s) :
    (∃ e s', consumeFinishes noPack (shift 512 s.traceQOut (front ++ [g]).length)
      (BitVec.ofNat 32 g) types s = .error e s') ∨
      ∃ finishes bits last groups s',
        consumeFinishes noPack (shift 512 s.traceQOut (front ++ [g]).length)
          (BitVec.ofNat 32 g) types s = .ok (BitVec.ofNat 32 last) s' ∧
        takeFinishes k types g u.bits = some (finishes, bits) ∧ (g :: finishes).getLast? =
          some last ∧
        Holds b k ⟨bits, u.starts⟩ m groups s' := by
  induction types generalizing front g back u s with
  | nil => exact .inr ⟨[], u.bits, g, front ++ g :: back, s, rfl, rfl, rfl, h⟩
  | cons type types ih =>
    rw [List.mem_cons, not_or] at htypes
    rw [consumeFinishes, takeFinishes]
    rcases consumeCAVector_finish (Ne.symm htypes.1) h with ⟨e, s', heq⟩ | ⟨finish, bits, infos,
      front', back', s', heq, htake, hholds⟩
    · exact .inl ⟨e, s', bind_error heq⟩
    · rw [bind_ok heq]
      dsimp only
      rcases ih htypes.2 hholds with ⟨e, s'', heq⟩ | ⟨finishes, bits', last, groups, s'', heq,
        hrest, hlast, hholds'⟩
      · exact .inl ⟨e, s'', heq⟩
      · refine .inr ⟨finish :: finishes, bits', last, groups, s'', heq, ?_, ?_, hholds'⟩
        · simp only [htake, hrest, Option.bind_eq_bind, Option.bind_some]
          rfl
        · rw [List.getLast?_cons_cons]
          exact hlast

theorem start_notMem_finishTypes (iType : InstType) : .start ∉ finishTypes iType := by
  cases iType <;> decide

theorem vectorFlags_of_finishTypes {iType : InstType} (h : finishTypes iType = []) :
    vectorFlags iType = 0 := by
  cases iType <;> first | rfl | cases h

theorem lt_of_take {mask : Byte} {g : ℕ} {bits bits' : ℕ → Byte}
    (h : take k mask g₀ bits = some (g, bits')) : g < 160 * k := by
  rw [take, Option.map_eq_some_iff] at h
  obtain ⟨g', hnext, heq⟩ := h
  obtain ⟨-, hlt, -⟩ := nextPosition_eq_some_iff.mp hnext
  rwa [← (Prod.mk.inj heq).1]

theorem last_lt_of_takeFinishes {types : List CAVectorTraceFlags} {g last : ℕ}
    {bits bits' : ℕ → Byte} {finishes : List ℕ} (hg : g < 160 * k)
    (h : takeFinishes k types g bits = some (finishes, bits'))
    (hlast : (g :: finishes).getLast? = some last) : last < 160 * k := by
  induction types generalizing g bits finishes with
  | nil =>
    rw [takeFinishes, Option.some.injEq, Prod.mk.injEq] at h
    obtain ⟨rfl, -⟩ := h
    obtain rfl : g = last := Option.some.inj hlast
    exact hg
  | cons type types ih =>
    rw [takeFinishes] at h
    obtain ⟨⟨finish, bits₁⟩, htake, h⟩ := Option.bind_eq_some_iff.mp h
    obtain ⟨⟨rest, bits₂⟩, hrest, h⟩ := Option.bind_eq_some_iff.mp h
    cases h
    rw [List.getLast?_cons_cons] at hlast
    exact ih (lt_of_take htake) hrest hlast

/-- The events of an instruction are matched and reported, or the call fails. -/
theorem consumeEvents_holds (hk : 160 * k ≤ 2 ^ 32) {g : ℕ}
    (h : Holds b k u g (front ++ g :: back) s) (hat : At g front (g :: back) s i)
    (hg : g < 160 * k) (iType : InstType) (pipe : BitVec 32) (info : CAInfo) :
    (∃ e s', consumeEvents noPack i iType
      { info with caFlags := pipe, pipeCycles := BitVec.ofNat 32 g } s = .error e s') ∨
      ∃ info' found u' groups s',
        consumeEvents noPack i iType { info with caFlags := pipe, pipeCycles := BitVec.ofNat 32 g }
          s = .ok info' s' ∧
        matchEvents k iType pipe g u = some (found, u') ∧ Reports found info' ∧
          Holds b k u' g groups s' := by
  have htoNat : ∀ {g'}, g' < 160 * k → (BitVec.ofNat 32 g').toNat = g' := fun hg' => by
    rw [BitVec.toNat_ofNat]
    exact Nat.mod_eq_of_lt (by omega)
  have hstart := start_notMem_finishTypes iType
  rw [consumeEvents, matchEvents]
  cases htypes : finishTypes iType with
  | nil =>
    refine .inr ⟨_, _, u, _, s, rfl, rfl, ⟨?_, htoNat hg, by simp, by simp, by simp⟩, h⟩
    rw [vectorFlags_of_finishTypes htypes]
    exact (BitVec.or_zero).symm
  | cons type types =>
    rw [htypes, List.mem_cons, not_or] at hstart
    dsimp only
    rcases consumeCAVector_start h hat with ⟨e, s', heq⟩ | ⟨start, bits, infos, front₁, back₁, s₁,
      heq, htake, hdepth, hholds⟩
    · exact .inl ⟨e, s', bind_error heq⟩
    rw [bind_ok heq]
    dsimp only
    rcases consumeCAVector_finish (Ne.symm hstart.1) hholds with
      ⟨e, s', heq⟩ | ⟨finish, bits', infos', front₂, back₂, s₂, heq, htake', hholds'⟩
    · exact .inl ⟨e, s', bind_error heq⟩
    rw [bind_ok heq]
    dsimp only
    rcases consumeFinishes_holds hstart.2 hholds' with ⟨e, s', heq⟩ | ⟨finishes, bits'', last,
      groups, s₃, heq, hrest, hlast, hholds''⟩
    · exact .inl ⟨e, s', bind_error heq⟩
    have hlt := last_lt_of_takeFinishes (lt_of_take htake') hrest hlast
    rw [bind_ok heq]
    refine .inr ⟨_, ⟨iType, pipe, g, start :: finish :: finishes, Unconsumed.depth
      ⟨bits'', u.starts ++ [start]⟩ g⟩, _, groups, s₃, rfl, ?_, ?_, hholds''⟩
    · simp only [takeFinishes, htake, htake', hrest, Option.bind_eq_bind, Option.bind_some]
      rfl
    · refine ⟨rfl, htoNat hg, fun start' hs => ?_, fun finish' hf => ?_, fun _ => ?_⟩
      · obtain rfl : start = start' := Option.some.inj hs
        exact htoNat (lt_of_take htake)
      · rw [List.getLast?_cons_cons, hlast] at hf
        obtain rfl : last = finish' := Option.some.inj hf
        exact htoNat hlt
      · show infos.qInfo.toNat = _
        rw [hdepth, BitVec.toNat_ofNat]
        rfl

end TraceDecoder.CATrace
