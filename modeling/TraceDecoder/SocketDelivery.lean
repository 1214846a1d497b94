import TraceDecoder.SocketFrames
import TraceDecoder.SocketRing

/-!
# Messages from a socket

However the bytes arrive, the calls of `readBinaryMsg` in socket mode produce the messages that
reading a file with the same bytes does.
-/

namespace TraceDecoder

namespace SocketParser

variable {s s' : SocketParser}

def pending (s : SocketParser) : List Byte := (List.range s.pendingMsgIndex).map s.msg

structure Ready (s : SocketParser) : Prop where
  inRing : s.InRing
  flushMessage : s.flushMessage = false
  pendingMsgIndex : s.pendingMsgIndex < 64

def left (s : SocketParser) : List Received := frames s.pending s.rest

theorem pending_of_zero (h : s.pendingMsgIndex = 0) : s.pending = [] := by
  rw [pending, h]
  rfl

theorem pending_ne_nil (h : s.pendingMsgIndex ≠ 0) : s.pending ≠ [] := by
  rw [pending, Ne, List.map_eq_nil_iff, List.range_eq_nil]
  exact h

theorem length_pending (s : SocketParser) : s.pending.length = s.pendingMsgIndex := by
  rw [pending, List.length_map, List.length_range]

theorem map_setMsg (s : SocketParser) (b : Byte) :
    (List.range (s.pendingMsgIndex + 1)).map (s.setMsg s.pendingMsgIndex b).msg = s.pending ++
    [b] := by
  rw [List.range_succ, List.map_append, pending]
  congr 1
  · refine List.map_congr_left fun i hi => if_neg ?_
    exact Nat.ne_of_lt (List.mem_range.mp hi)
  · exact congrArg (fun c => [c]) (if_pos rfl)

theorem Moves.left (h : s.Moves s') : s'.left = s.left := by
  unfold SocketParser.left pending
  rw [h.pendingMsgIndex, h.msg, h.rest]

theorem Moves.ready (h : s.Moves s') (hs : s.Ready) : s'.Ready :=
  ⟨h.inRing, h.flushMessage.trans hs.flushMessage, h.pendingMsgIndex ▸ hs.pendingMsgIndex⟩

structure Reads (s s' : SocketParser) : Prop where
  suffix : s'.rest <:+ s.rest
  unread : s'.SWTsock.unread.length ≤ s.SWTsock.unread.length
  arrivals : Later s.SWTsock.arrivals s'.SWTsock.arrivals

theorem Reads.trans {s'' : SocketParser} (h : s.Reads s') (h' : s'.Reads s'') : s.Reads s'' :=
  ⟨h'.suffix.trans h.suffix, h'.unread.trans h.unread, h.arrivals.trans h'.arrivals⟩

theorem Moves.reads (h : s.Moves s') : s.Reads s' :=
  ⟨h.rest ▸ List.suffix_refl _, h.unread, h.arrivals⟩

theorem Takes.reads {b : Byte} (h : s.Takes b s') : s.Reads s' :=
  ⟨h.rest ▸ List.suffix_cons b _, h.unread, h.arrivals⟩

theorem Takes.length {b : Byte} (h : s.Takes b s') : s'.rest.length < s.rest.length := by
  rw [h.rest]
  exact Nat.lt_succ_self _

structure Returns (s : SocketParser) (rc : DQErr) (s' : SocketParser) : Prop where
  ready : s'.Ready
  rc : rc = .ok ∨ rc = .err
  left : s'.left = s.left
  reads : s.Reads s'
  waits : s'.rest.length < s.rest.length ∨ s.Waits s'

theorem Moves.returns (h : s.Moves s') (hs : s.Ready) {rc : DQErr} (hrc : rc = .ok ∨ rc = .err)
    (hwaits : s.Waits s') :
    s.Returns rc s' := ⟨h.ready hs, hrc, h.left, h.reads, .inr hwaits⟩

theorem Returns.after {s₁ : SocketParser} {rc : DQErr} (h : s₁.Returns rc s')
    (hleft : s₁.left = s.left)
    (hreads : s.Reads s₁) (hlen : s₁.rest.length < s.rest.length) : s.Returns rc s' :=
  ⟨h.ready, h.rc, h.left.trans hleft, hreads.trans h.reads,
    .inl (h.reads.suffix.length_le.trans_lt hlen)⟩

theorem startLoop_spec (hs : s.Ready) (hzero : s.pendingMsgIndex = 0) {n : ℕ}
    (hn : s.rest.length < n) : (∃ rc s', startLoop n s = some (.ret rc s') ∧ s.Returns rc s') ∨
      ∃ s', startLoop n s = some (.next s') ∧ s'.Ready ∧ s'.pendingMsgIndex ≠ 0 ∧ s'.left = s.left ∧
        s.Reads s' ∧ s'.rest.length < s.rest.length := by
  induction n generalizing s with
  | zero => exact absurd hn (Nat.not_lt_zero _)
  | succ n ih =>
    rw [startLoop]
    rcases nextByte_spec hs.inRing with ⟨b, t, hnext, htakes⟩ | ⟨rc, t, hnext, hrc, hmoves, hwaits⟩
    · rw [hnext]
      dsimp only
      have hready : (t.setMsg 0 b).Ready :=
        ⟨⟨htakes.inRing.1, htakes.inRing.2⟩, htakes.flushMessage.trans hs.flushMessage,
          lt_of_eq_of_lt htakes.pendingMsgIndex hs.pendingMsgIndex⟩
      have hreads : s.Reads (t.setMsg 0 b) := ⟨htakes.reads.1, htakes.reads.2, htakes.reads.3⟩
      have hzero' : (t.setMsg 0 b).pendingMsgIndex = 0 := htakes.pendingMsgIndex.trans hzero
      have hbefore : s.left = frames [] (b :: t.rest) := by
        rw [left, pending_of_zero hzero, htakes.rest]
      split_ifs with hidle
      · have hleft : (t.setMsg 0 b).left = s.left := by
          rw [hbefore, frames_idle hidle, left, pending_of_zero hzero']
          rfl
        rcases ih hready hzero' (Nat.lt_of_lt_of_le htakes.length (Nat.le_of_lt_succ hn)) with
          ⟨rc, s', hloop, hreturns⟩ | ⟨s', hloop, hready', hne, hleft', hreads', hlen⟩
        · exact .inl ⟨rc, s', hloop, hreturns.after hleft hreads htakes.length⟩
        · exact .inr ⟨s', hloop, hready', hne, hleft'.trans hleft, hreads.trans hreads',
            hlen.trans htakes.length⟩
      · refine .inr ⟨_, rfl, ⟨⟨htakes.inRing.1, htakes.inRing.2⟩, hready.flushMessage, show 1 <
          64 by decide⟩, Nat.one_ne_zero, ?_, ⟨htakes.reads.1, htakes.reads.2, htakes.reads.3⟩,
            htakes.length⟩
        rw [hbefore, frames_start hidle]
        rfl
    · rw [hnext]
      refine .inl ⟨rc, t, ?_, hmoves.returns hs hrc hwaits⟩
      rcases hrc with rfl | rfl <;> rfl

/-- A loop that returns with the first of the messages that are left. -/
structure Produces (s : SocketParser) (r : Received) (s' : SocketParser) : Prop where
  inRing : s'.InRing
  flushMessage : s'.flushMessage = false
  left : s.left = r :: frames [] s'.rest
  reads : s.Reads s'
  length : s'.rest.length < s.rest.length

theorem Produces.after {s₁ : SocketParser} {r : Received} (h : s₁.Produces r s')
    (hleft : s₁.left = s.left)
    (hreads : s.Reads s₁) (hlen : s₁.rest.length < s.rest.length) : s.Produces r s' :=
  ⟨h.inRing, h.flushMessage, hleft ▸ h.left, hreads.trans h.reads, h.length.trans hlen⟩

theorem collectLoop_spec (hs : s.Ready) (hpending : s.pendingMsgIndex ≠ 0) {n : ℕ}
    (hn : s.rest.length < n) : (∃ rc s', collectLoop n s = some (.ret rc s') ∧ s.Returns rc s') ∨
      (∃ s', collectLoop n s = some (.ret .bm s') ∧ s'.pendingMsgIndex = 0 ∧ s.Produces .bm s') ∨
      ∃ s', collectLoop n s = some (.next s') ∧ s.Produces
        (.msg ((List.range s'.msgSlices).map s'.msg)) s' := by
  induction n generalizing s with
  | zero => exact absurd hn (Nat.not_lt_zero _)
  | succ n ih =>
    rw [collectLoop, if_neg (Nat.not_le.mpr hs.pendingMsgIndex)]
    rcases nextByte_spec hs.inRing with ⟨b, t, hnext, htakes⟩ | ⟨rc, t, hnext, hrc, hmoves, hwaits⟩
    · rw [hnext]
      dsimp only
      have hslices : (List.range (t.pendingMsgIndex + 1)).map (t.setMsg t.pendingMsgIndex b).msg =
          s.pending ++ [b] := by
        rw [map_setMsg, pending, pending, htakes.pendingMsgIndex, htakes.msg]
      have hbefore : s.left = frames s.pending (b :: t.rest) := by rw [left, htakes.rest]
      have hreads : s.Reads t := htakes.reads
      have hflush : t.flushMessage = false := htakes.flushMessage.trans hs.flushMessage
      split_ifs with hend
      · refine .inr (.inr ⟨_, rfl, ⟨⟨htakes.inRing.1, htakes.inRing.2⟩, hflush, ?_,
          ⟨hreads.1, hreads.2, hreads.3⟩, htakes.length⟩⟩)
        rw [hbefore, frames_end (pending_ne_nil hpending) hend]
        exact congrArg (fun slices => Received.msg slices :: frames [] t.rest) hslices.symm
      · set t₁ : SocketParser :=
          { t.setMsg t.pendingMsgIndex b with pendingMsgIndex := t.pendingMsgIndex + 1 }
        have hpending₁ : t₁.pending = s.pending ++ [b] := hslices
        have hlen : s.pending.length = t.pendingMsgIndex :=
          (length_pending s).trans htakes.pendingMsgIndex.symm
        by_cases hfull : 64 ≤ s.pending.length + 1
        · -- the message has filled its buffer, and the next round gives it up
          obtain ⟨m, rfl⟩ : ∃ m, n = m + 1 := Nat.exists_eq_succ_of_ne_zero (by
            have hpos := htakes.length
            omega)
          refine .inr (.inl ⟨{ t₁ with pendingMsgIndex := 0, flushMessage := false, status := .bm },
            ?_, rfl, ⟨⟨htakes.inRing.1, htakes.inRing.2⟩, rfl, ?_, ⟨hreads.1, hreads.2, hreads.3⟩,
              htakes.length⟩⟩)
          · rw [collectLoop]
            exact if_pos (by rw [hlen] at hfull; exact hfull)
          · rw [hbefore, frames_overflow (pending_ne_nil hpending) hend hfull]
            rfl
        · have hready : t₁.Ready :=
            ⟨⟨htakes.inRing.1, htakes.inRing.2⟩, hflush, by
              rw [hlen] at hfull; exact Nat.not_le.mp hfull⟩
          have hleft : t₁.left = s.left := by
            rw [hbefore, frames_collect (pending_ne_nil hpending) hend hfull, left, hpending₁]
            rfl
          have hreads₁ : s.Reads t₁ := ⟨hreads.1, hreads.2, hreads.3⟩
          have hlen₁ : t₁.rest.length < s.rest.length := htakes.length
          rcases ih hready (Nat.succ_ne_zero _)
            (Nat.lt_of_lt_of_le hlen₁ (Nat.le_of_lt_succ hn)) with ⟨rc, s', hloop, hreturns⟩ | ⟨s',
              hloop, hzero, hproduces⟩ | ⟨s', hloop, hproduces⟩
          · exact .inl ⟨rc, s', hloop, hreturns.after hleft hreads₁ hlen₁⟩
          · exact .inr (.inl ⟨s', hloop, hzero, hproduces.after hleft hreads₁ hlen₁⟩)
          · exact .inr (.inr ⟨s', hloop, hproduces.after hleft hreads₁ hlen₁⟩)
    · rw [hnext]
      refine .inl ⟨rc, t, ?_, hmoves.returns hs hrc hwaits⟩
      rcases hrc with rfl | rfl <;> rfl

/-! ### Calls -/

theorem length_rest_lt (h : s.InRing) :
    s.rest.length < sockBufferSize + s.SWTsock.unread.length + 1 := by
  have hlt := RingIndex.distance_lt h.bufferInIndex h.bufferOutIndex
  rw [rest, List.length_append, ring, RingIndex.cells, List.length_map, List.length_range]
  omega

theorem of_ok_or_err {rc : DQErr} (h : rc = .ok ∨ rc = .err) (slices : List Byte) :
    Received.of rc false slices = none := by
  rcases h with rfl | rfl <;> rfl

/-- What a call leaves behind: it produces the first of the messages that are left, or none. -/
structure Called (s : SocketParser) (rc : DQErr) (haveMsg : Bool) (s' : SocketParser) : Prop where
  ready : s'.Ready
  left : (Received.of rc haveMsg ((List.range s'.msgSlices).map s'.msg)).toList ++ s'.left = s.left
  reads : s.Reads s'
  waits : s'.rest.length < s.rest.length ∨ s.Waits s'

theorem Returns.called {rc : DQErr} (h : s.Returns rc s') : s.Called rc false s' := by
  refine ⟨h.ready, ?_, h.reads, h.waits⟩
  rw [of_ok_or_err h.rc]
  exact h.left

theorem Called.after {s₁ : SocketParser} {rc : DQErr} {haveMsg : Bool} (h : s₁.Called rc haveMsg s')
    (hleft : s₁.left = s.left) (hreads : s.Reads s₁) (hlen : s₁.rest.length < s.rest.length) :
    s.Called rc haveMsg s' :=
  ⟨h.ready, h.left.trans hleft, hreads.trans h.reads, .inl (h.reads.suffix.length_le.trans_lt hlen)⟩

theorem readRest_spec (hs : s.Ready) (hpending : s.pendingMsgIndex ≠ 0) {n : ℕ}
    (hn : s.rest.length < n) :
    ∃ rc haveMsg s', s.readRest n = some (rc, haveMsg, s') ∧ s.Called rc haveMsg s' := by
  set t : SocketParser := { s with msgOffset := 0 }
  have ht : t.Ready := ⟨⟨hs.inRing.1, hs.inRing.2⟩, hs.flushMessage, hs.pendingMsgIndex⟩
  have hcalled : ∀ {rc haveMsg s'}, t.Called rc haveMsg s' → s.Called rc haveMsg s' :=
    fun h => ⟨h.ready, h.left, ⟨h.reads.1, h.reads.2, h.reads.3⟩, h.waits⟩
  unfold readRest
  rcases collectLoop_spec ht hpending hn with ⟨rc, s', hloop, hreturns⟩ | ⟨s', hloop, hzero,
    hproduces⟩ | ⟨s', hloop, hproduces⟩
  · rw [hloop]
    exact ⟨rc, false, s', rfl, hcalled hreturns.called⟩
  · rw [hloop]
    refine ⟨.bm, false, s', rfl, hcalled ⟨⟨hproduces.inRing, hproduces.flushMessage, hzero ▸
      Nat.succ_pos _⟩, ?_, hproduces.reads, .inl hproduces.length⟩⟩
    rw [hproduces.left, left, pending_of_zero hzero]
    rfl
  · rw [hloop]
    refine ⟨.ok, true, _, rfl,
      hcalled ⟨⟨⟨hproduces.inRing.1, hproduces.inRing.2⟩, hproduces.flushMessage, Nat.succ_pos _⟩,
      ?_, ⟨hproduces.reads.1, hproduces.reads.2, hproduces.reads.3⟩, .inl hproduces.length⟩⟩
    rw [hproduces.left]
    rfl

theorem readBinaryMsg_spec (hs : s.Ready) :
    ∃ rc haveMsg s', s.readBinaryMsg = some (rc, haveMsg, s') ∧ s.Called rc haveMsg s' := by
  have hfuel := length_rest_lt hs.inRing
  unfold readBinaryMsg
  dsimp only
  rw [hs.flushMessage, if_neg Bool.false_ne_true, Option.bind_some]
  dsimp only
  by_cases hzero : s.pendingMsgIndex = 0
  · rw [if_pos hzero]
    rcases startLoop_spec hs hzero hfuel with ⟨rc, t, hloop, hreturns⟩ | ⟨t, hloop, ht, hpending,
      hleft, hreads, hlen⟩
    · rw [hloop]
      exact ⟨rc, false, t, rfl, hreturns.called⟩
    · obtain ⟨rc, haveMsg, s', hrest, hcalled⟩ := readRest_spec ht hpending (hlen.trans hfuel)
      rw [hloop, Option.bind_some]
      exact ⟨rc, haveMsg, s', hrest, hcalled.after hleft hreads hlen⟩
  · rw [if_neg hzero, Option.bind_some]
    exact readRest_spec hs hzero hfuel

/-! ### Runs -/

/-- `n` calls produce the first of the messages that are left. -/
theorem received_spec (hs : s.Ready) (n : ℕ) :
    ∃ rs s', s.received n = some (rs, s') ∧ s'.Ready ∧ rs ++ s'.left = s.left ∧ s.Reads s' := by
  induction n generalizing s with
  | zero => exact ⟨[], s, rfl, hs, rfl, ⟨List.suffix_refl _, Nat.le_refl _, .refl _⟩⟩
  | succ n ih =>
    obtain ⟨rc, haveMsg, t, hread, hcalled⟩ := readBinaryMsg_spec hs
    obtain ⟨rs, s', hreceived, hready, hleft, hreads⟩ := ih hcalled.ready
    refine ⟨(Received.of rc haveMsg ((List.range t.msgSlices).map t.msg)).toList ++ rs, s',
      ?_, hready, ?_, hcalled.reads.trans hreads⟩
    · rw [received, hread, Option.bind_some, hreceived, Option.map_some]
    · rw [List.append_assoc, hleft]
      exact hcalled.left

theorem received_add {n m : ℕ} {rs rs' : List Received} {s₁ : SocketParser}
    (h : s.received n = some (rs, s₁))
    (h' : s₁.received m = some (rs', s')) : s.received (n + m) = some (rs ++ rs', s') := by
  induction n generalizing s rs with
  | zero =>
    cases h
    rw [Nat.zero_add]
    exact h'
  | succ n ih =>
    rw [received] at h
    obtain ⟨r, hread, hrest⟩ := Option.bind_eq_some_iff.mp h
    obtain ⟨⟨rs₁, t⟩, hreceived, heq⟩ := Option.map_eq_some_iff.mp hrest
    cases heq
    rw [Nat.succ_add, received, hread, Option.bind_some, ih hreceived, Option.map_some,
      List.append_assoc]

def Delivers (arrivals : ℕ → Option ℕ) : Prop := ∀ t, ∃ t' ≥ t, Arrives (arrivals t')

theorem Delivers.later {arrivals arrivals' : ℕ → Option ℕ} (h : Delivers arrivals)
    (hlater : Later arrivals arrivals') :
    Delivers arrivals' := by
  obtain ⟨k, rfl⟩ := hlater
  intro t
  obtain ⟨t', ht', harrives⟩ := h (t + k)
  refine ⟨t' - k, by omega, ?_⟩
  dsimp only
  rw [Nat.sub_add_cancel (by omega)]
  exact harrives

theorem received_succ {n : ℕ} {rc : DQErr} {haveMsg : Bool} {s₁ : SocketParser} {rs : List Received}
    (hread : s.readBinaryMsg = some (rc, haveMsg, s₁)) (h : s₁.received n = some (rs, s')) :
    s.received (n + 1) =
      some ((Received.of rc haveMsg ((List.range s₁.msgSlices).map s₁.msg)).toList ++ rs, s') := by
  rw [received, hread, Option.bind_some, h, Option.map_some]

/-- As long as bytes are left, some calls later there are less of them. -/
theorem exists_shorter (t : ℕ) (hs : s.Ready) (hdelivers : Delivers s.SWTsock.arrivals)
    (hrest : s.rest ≠ []) (ht : Arrives (s.SWTsock.arrivals t)) :
    ∃ n rs s', s.received n = some (rs, s') ∧ s'.Ready ∧ s.Reads s' ∧
      s'.rest.length < s.rest.length := by
  -- on the bytes that have not been received, and then on the calls of `recv` up to one that gets
  -- some
  induction hu : s.SWTsock.unread.length using Nat.strong_induction_on generalizing s t with
  | _ u ihu =>
    induction t using Nat.strong_induction_on generalizing s with
    | _ t iht =>
      obtain ⟨rc, haveMsg, s₁, hread, hcalled⟩ := readBinaryMsg_spec hs
      have hdelivers₁ := hdelivers.later hcalled.reads.arrivals
      by_cases hless : s₁.rest.length < s.rest.length
      · exact ⟨1, _, s₁, received_succ hread rfl, hcalled.ready, hcalled.reads, hless⟩
      · have hrest₁ : s₁.rest ≠ [] := by
          intro hnil
          rw [hnil] at hless
          exact hless (List.length_pos_iff.mpr hrest)
        have hthen : (∃ n rs s', s₁.received n = some (rs, s') ∧ s'.Ready ∧ s₁.Reads s' ∧
            s'.rest.length < s₁.rest.length) → ∃ n rs s', s.received n = some (rs, s') ∧ s'.Ready ∧
              s.Reads s' ∧ s'.rest.length < s.rest.length := by
          rintro ⟨n, rs, s', hreceived, hready, hreads, hlen⟩
          exact ⟨n + 1, _, s', received_succ hread hreceived, hready, hcalled.reads.trans hreads,
            hlen.trans_le hcalled.reads.suffix.length_le⟩
        refine hthen ?_
        obtain ⟨t', -, ht'⟩ := hdelivers₁ 0
        by_cases hunread : s₁.SWTsock.unread.length < s.SWTsock.unread.length
        · exact ihu _ (hu ▸ hunread) t' hcalled.ready hdelivers₁ hrest₁ ht' rfl
        · rcases hcalled.waits.resolve_left hless with hwait | hnil | ⟨harrivals, hnot⟩
          · exact absurd hwait hunread
          · exact absurd hnil hrest
          · cases t with
            | zero => exact absurd ht hnot
            | succ t =>
              have ht₁ : Arrives (s₁.SWTsock.arrivals t) := by
                rw [harrivals]
                exact ht
              have hsame := Nat.le_antisymm hcalled.reads.unread (Nat.not_lt.mp hunread)
              exact iht t (Nat.lt_succ_self t) hcalled.ready hdelivers₁ hrest₁ ht₁ (hsame.trans hu)

theorem exists_drained (hs : s.Ready) (hdelivers : Delivers s.SWTsock.arrivals) :
    ∃ n rs s', s.received n = some (rs, s') ∧ s'.Ready ∧ s'.rest = [] := by
  induction hlen : s.rest.length using Nat.strong_induction_on generalizing s with
  | _ k ih =>
    by_cases hrest : s.rest = []
    · exact ⟨0, [], s, rfl, hs, hrest⟩
    · obtain ⟨t, -, ht⟩ := hdelivers 0
      obtain ⟨n, rs, s₁, hreceived, hready, hreads, hless⟩ := exists_shorter t hs hdelivers hrest ht
      obtain ⟨m, rs', s', hreceived', hready', hnil⟩ :=
        ih _ (hlen ▸ hless) hready (hdelivers.later hreads.arrivals) rfl
      exact ⟨n + m, _, s', received_add hreceived hreceived', hready', hnil⟩

theorem ready_init (SWTsock : Socket) (msgOffset : BitVec 32) (msg sockBuffer : ℕ → Byte) :
    (init SWTsock msgOffset msg sockBuffer).Ready ∧ (init SWTsock msgOffset msg sockBuffer).rest =
      SWTsock.unread :=
  ⟨⟨⟨Nat.succ_pos _, Nat.succ_pos _⟩, rfl, Nat.succ_pos _⟩, rfl⟩

/-- However the bytes arrive, `n` calls in socket mode return with the first messages of a file with
the same bytes, and what is left to read is the end of them. If bytes arrive again and again, some
calls later all messages of the file have been produced. -/
theorem received_eq_file (srcbits : ℕ) (bytes : List Byte) (arrivals : ℕ → Option ℕ)
    (msgOffset : BitVec 32) (msg sockBuffer : ℕ → Byte) :
    (∀ n, ∃ rs s', (init ⟨bytes, arrivals⟩ msgOffset msg sockBuffer).received n = some (rs, s') ∧
      s'.rest <:+ bytes ∧
      ∃ m, rs = (SliceFileParser.init srcbits bytes).received m) ∧
    (Delivers arrivals → ∃ n, ∀ n' ≥ n, ∀ m ≥ bytes.length, ∃ s',
      (init ⟨bytes, arrivals⟩ msgOffset msg sockBuffer).received n' =
        some ((SliceFileParser.init srcbits bytes).received m, s')) := by
  obtain ⟨hready, hrest⟩ := ready_init ⟨bytes, arrivals⟩ msgOffset msg sockBuffer
  have hfile : ∀ m, (SliceFileParser.init srcbits bytes).received m = (frames [] bytes).take m :=
    fun m => SliceFileParser.received_eq _ rfl m
  have hleft : (init ⟨bytes, arrivals⟩ msgOffset msg sockBuffer).left = frames [] bytes := by
    rw [left, hrest]
    rfl
  constructor
  · intro n
    obtain ⟨rs, s', hreceived, -, hrs, hreads⟩ := received_spec hready n
    have hsuffix := hreads.suffix
    rw [hrest] at hsuffix
    refine ⟨rs, s', hreceived, hsuffix, rs.length, ?_⟩
    rw [hfile, ← hleft, ← hrs, List.take_left']
    rfl
  · intro hdelivers
    obtain ⟨n, rs, s₁, hreceived, hready₁, hnil⟩ := exists_drained hready hdelivers
    refine ⟨n, fun n' hn' m hm => ?_⟩
    obtain ⟨rs', s', hreceived', -, hrs', hreads⟩ := received_spec hready₁ (n' - n)
    have hall := received_add hreceived hreceived'
    rw [Nat.add_sub_cancel' hn'] at hall
    obtain ⟨rs'', s'', hspec, -, hrs'', -⟩ := received_spec hready n'
    have hnone : s'.left = [] := by
      have hnil' : s'.rest = [] := List.suffix_nil.mp (hnil ▸ hreads.suffix)
      rw [left, hnil']
      rfl
    obtain ⟨rfl, rfl⟩ : rs ++ rs' = rs'' ∧ s' = s'' := by
      rw [hall] at hspec
      exact Prod.mk.inj (Option.some.inj hspec)
    rw [hnone, List.append_nil, hleft] at hrs''
    refine ⟨s', ?_⟩
    rw [hall, hfile, hrs'', List.take_of_length_le ((length_frames_le [] bytes).trans hm)]

/-- A message behind an idle byte, of which every other call of `recv` gets one byte. -/
theorem received_eq_file_one :
    (∃ n, ∀ n' ≥ n, ∀ m ≥ 4, ∃ s',
    (init ⟨[0xff, 0x38, 0x04, 0x03], fun i => some (i % 2)⟩ 0 (fun _ => 0) fun _ => 0).received n' =
      some ((SliceFileParser.init 0 [0xff, 0x38, 0x04, 0x03]).received m, s')) ∧
    (SliceFileParser.init 0 [0xff, 0x38, 0x04, 0x03]).received 4 = [.msg [0x38, 0x04, 0x03]] := by
  refine ⟨(received_eq_file 0 [0xff, 0x38, 0x04, 0x03] (fun i => some (i % 2)) 0 (fun _ => 0)
    fun _ => 0).2 fun t => ⟨2 * t + 1, by omega, 0, ?_⟩, by decide⟩
  exact congrArg some (by omega)

end SocketParser

end TraceDecoder
