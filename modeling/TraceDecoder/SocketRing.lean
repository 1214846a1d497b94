import TraceDecoder.SocketParser

/-!
# The ring of a socket

Receiving moves bytes from the socket to the end of the ring, so the bytes that are left to read
stay the same.
-/

namespace TraceDecoder

namespace SocketParser

open RingIndex

variable {s s' : SocketParser}

structure InRing (s : SocketParser) : Prop where
  bufferInIndex : s.bufferInIndex < sockBufferSize
  bufferOutIndex : s.bufferOutIndex < sockBufferSize

def ring (s : SocketParser) : List Byte :=
  cells s.sockBuffer sockBufferSize s.bufferOutIndex s.bufferInIndex

def rest (s : SocketParser) : List Byte := s.ring ++ s.SWTsock.unread

/-- Some calls of `recv` later. -/
def Later (arrivals arrivals' : ℕ → Option ℕ) : Prop := ∃ k, arrivals' = fun i => arrivals (i + k)

theorem Later.refl (arrivals : ℕ → Option ℕ) : Later arrivals arrivals := ⟨0, rfl⟩

theorem Later.trans {a a' a'' : ℕ → Option ℕ} (h : Later a a') (h' : Later a' a'') :
    Later a a'' := by
  obtain ⟨k, rfl⟩ := h
  obtain ⟨k', rfl⟩ := h'
  exact ⟨k' + k, funext fun i => congrArg a (Nat.add_assoc i k' k)⟩

/-- Two states of a call of `bufferSWT`; the bytes that are left are the same, in other places. -/
structure Moves (s s' : SocketParser) : Prop where
  inRing : s'.InRing
  rest : s'.rest = s.rest
  unread : s'.SWTsock.unread.length ≤ s.SWTsock.unread.length
  arrivals : Later s.SWTsock.arrivals s'.SWTsock.arrivals
  pendingMsgIndex : s'.pendingMsgIndex = s.pendingMsgIndex
  msg : s'.msg = s.msg
  flushMessage : s'.flushMessage = s.flushMessage
  msgSlices : s'.msgSlices = s.msgSlices

theorem Moves.refl (h : s.InRing) : Moves s s :=
  ⟨h, rfl, Nat.le_refl _, .refl _, rfl, rfl, rfl, rfl⟩

theorem Moves.trans {s'' : SocketParser} (h : Moves s s') (h' : Moves s' s'') : Moves s s'' :=
  ⟨h'.inRing, h'.rest.trans h.rest, h'.unread.trans h.unread, h.arrivals.trans h'.arrivals,
    h'.pendingMsgIndex.trans h.pendingMsgIndex, h'.msg.trans h.msg,
      h'.flushMessage.trans h.flushMessage,
    h'.msgSlices.trans h.msgSlices⟩

def Arrives (arrival : Option ℕ) : Prop := ∃ k, arrival = some (k + 1)

/-- A call of `recv` has been made, and nothing had arrived. -/
def Idles (sock sock' : Socket) : Prop :=
  sock'.arrivals = (fun i => sock.arrivals (i + 1)) ∧ ¬ Arrives (sock.arrivals 0)

theorem store_nil (buf : ℕ → Byte) (j : ℕ) : store buf j [] = buf :=
  funext fun k => store_of_le buf ((Nat.lt_or_ge k j).imp id fun h => h)

theorem receive_eq (s : SocketParser) (i : ℕ) {n : ℕ} (hn : 0 < n) :
    ∃ (br : Option ℕ) (bytes : List Byte) (sock : Socket),
      s.receive i n = (br, { s with SWTsock := sock, sockBuffer := store s.sockBuffer i bytes }) ∧
      br.getD 0 = bytes.length ∧ bytes.length ≤ n ∧ s.SWTsock.unread = bytes ++ sock.unread ∧
      Later s.SWTsock.arrivals sock.arrivals ∧
      (bytes = [] → br = none ∨ s.SWTsock.unread ≠ [] → Idles s.SWTsock sock) := by
  unfold receive Socket.recv
  cases harrival : s.SWTsock.arrivals 0 with
  | none =>
    refine ⟨none, [], ⟨s.SWTsock.unread, fun i => s.SWTsock.arrivals (i + 1)⟩, ?_, rfl,
      Nat.zero_le n, rfl, ⟨1, rfl⟩, fun _ _ => ⟨rfl, ?_⟩⟩
    · rw [store_nil]
    · rintro ⟨k, hk⟩
      rw [harrival] at hk
      cases hk
  | some k =>
    refine ⟨_, s.SWTsock.unread.take (min k n), _, rfl, rfl, (List.length_take_le _ _).trans
      (Nat.min_le_right k n), (List.take_append_drop _ _).symm, ⟨1, rfl⟩,
        fun hnil hunread => ⟨rfl, ?_⟩⟩
    rintro ⟨m, hm⟩
    have hk : k = m + 1 := by
      rw [harrival] at hm
      exact Option.some.inj hm
    rcases List.take_eq_nil_iff.mp hnil with hmin | hnone
    · omega
    · exact hunread.elim (fun h => absurd h (Option.some_ne_none _)) fun h => h hnone

theorem moves_store (h : s.InRing) {bytes : List Byte} {sock : Socket}
    (hunread : s.SWTsock.unread = bytes ++ sock.unread)
    (hlater : Later s.SWTsock.arrivals sock.arrivals)
    (hend : s.bufferInIndex + bytes.length ≤ sockBufferSize)
    (hroom : distance sockBufferSize s.bufferOutIndex s.bufferInIndex + bytes.length <
      sockBufferSize) :
    Moves s { s with
      SWTsock := sock, sockBuffer := store s.sockBuffer s.bufferInIndex bytes
      bufferInIndex := shift sockBufferSize s.bufferInIndex bytes.length } := by
  refine ⟨⟨shift_lt (by decide), h.bufferOutIndex⟩, ?_, ?_, hlater, rfl, rfl, rfl, rfl⟩
  · have hcells := cells_store s.sockBuffer h.bufferOutIndex h.bufferInIndex hend hroom
    unfold rest ring
    dsimp only
    rw [hcells, hunread, List.append_assoc]
  · rw [hunread, List.length_append]
    exact Nat.le_add_left _ _

theorem ring_eq_nil_iff (h : s.InRing) : s.ring = [] ↔ s.bufferInIndex = s.bufferOutIndex := by
  constructor
  · intro hnil
    by_contra hne
    rw [ring, cells_cons _ h.bufferOutIndex h.bufferInIndex (Ne.symm hne)] at hnil
    cases hnil
  · intro heq
    rw [ring, heq]
    exact cells_self _ _ _

/-- What a call of `bufferSWT` tells when no byte has been received. -/
def Quiet (s : SocketParser) (br : Option ℕ) (s' : SocketParser) : Prop :=
  s'.SWTsock.unread.length < s.SWTsock.unread.length ∨ (br ≠ none ∧ s.ring ≠ []) ∨ s.rest = [] ∨
    Idles s.SWTsock s'.SWTsock

theorem quiet_of_receive {bytes : List Byte} {sock : Socket} {br : Option ℕ}
    (hunread : s.SWTsock.unread = bytes ++ sock.unread)
    (hidle : bytes = [] → br = none ∨ s.SWTsock.unread ≠ [] → Idles s.SWTsock sock)
    {t : SocketParser} (ht : t.SWTsock = sock) :
    Quiet s br t := by
  subst ht
  by_cases hbytes : bytes = []
  · by_cases hbr : br = none
    · exact .inr (.inr (.inr (hidle hbytes (.inl hbr))))
    · by_cases hring : s.ring = []
      · by_cases hnil : s.SWTsock.unread = []
        · exact .inr (.inr (.inl (by rw [rest, hring, hnil, List.append_nil])))
        · exact .inr (.inr (.inr (hidle hbytes (.inr hnil))))
      · exact .inr (.inl ⟨hbr, hring⟩)
  · have hpos := List.length_pos_iff.mpr hbytes
    refine .inl ?_
    rw [hunread, List.length_append]
    omega

/-- The second call of `recv`, behind a first one that has filled the tail of the ring. -/
theorem receiveStart_spec (h : s.InRing) (hin : s.bufferInIndex = 0) {n : ℕ}
    (hn : n = s.bufferOutIndex - 1) (hroom : 0 < n) :
    Moves s { (s.receive 0 n).2 with bufferInIndex := (s.receive 0 n).1.getD 0 } := by
  have hout := h.bufferOutIndex
  obtain ⟨br, bytes, sock, hreceive, hbr, hlen, hunread, hlater, -⟩ := s.receive_eq 0 hroom
  have hmoves :=
    moves_store h hunread hlater (by omega) (by rw [distance, hin]; split_ifs <;> omega)
  rw [hin, shift_eq (by decide) (by omega), Nat.zero_add, if_pos (by omega)] at hmoves
  rw [hreceive]
  dsimp only
  rw [hbr]
  exact hmoves

theorem fillRing_spec (h : s.InRing) :
    Moves s s.fillRing.2 ∧ Quiet s s.fillRing.1 s.fillRing.2 := by
  have hin := h.bufferInIndex
  have hout := h.bufferOutIndex
  have hstill : s.bufferInIndex ≠ s.bufferOutIndex → Quiet s (some 0) s := fun hne =>
    .inr (.inl ⟨Option.some_ne_none 0, fun hnil => hne ((ring_eq_nil_iff h).mp hnil)⟩)
  unfold fillRing
  by_cases hempty : s.bufferInIndex = s.bufferOutIndex
  · -- the ring is empty, and is filled from its start
    obtain ⟨br, bytes, sock, hreceive, hbr, hlen, hunread, hlater, hidle⟩ :=
      s.receive_eq 0 (show 0 < sockBufferSize - 1 by decide)
    rw [if_pos hempty, hreceive]
    dsimp only
    rw [hbr]
    have hsmall : bytes.length < sockBufferSize := lt_of_le_of_lt hlen (by decide)
    have hring := (ring_eq_nil_iff h).mpr hempty
    by_cases hbytes : bytes = []
    · subst hbytes
      rw [if_neg (show ¬ 0 < ([] : List Byte).length from Nat.lt_irrefl 0)]
      refine ⟨⟨⟨hin, hout⟩, ?_, Nat.le_of_eq (congrArg List.length hunread.symm), hlater, rfl, rfl,
        rfl, rfl⟩,
        quiet_of_receive hunread hidle rfl⟩
      unfold rest ring
      dsimp only
      rw [store_nil, hunread]
      rfl
    · rw [if_pos (List.length_pos_iff.mpr hbytes)]
      have hzero : 0 < sockBufferSize := by decide
      have hroom : distance sockBufferSize 0 0 + bytes.length < sockBufferSize := by
        rw [distance, if_pos (Nat.le_refl 0)]
        omega
      have hcells := cells_store s.sockBuffer hzero hzero (by omega) hroom
      rw [shift_eq hzero (by omega), Nat.zero_add, if_pos hsmall, cells_self,
        List.nil_append] at hcells
      refine ⟨⟨⟨hsmall, hzero⟩, ?_, ?_, hlater, rfl, rfl, rfl, rfl⟩, quiet_of_receive hunread hidle
        rfl⟩
      · unfold rest
        rw [hring, List.nil_append, hunread]
        exact congrArg (· ++ sock.unread) hcells
      · rw [hunread, List.length_append]
        exact Nat.le_add_left _ _
  · rw [if_neg hempty]
    by_cases hbehind : s.bufferInIndex < s.bufferOutIndex
    · rw [if_pos hbehind]
      dsimp only
      by_cases hroom : 0 < s.bufferOutIndex - s.bufferInIndex - 1
      · obtain ⟨br, bytes, sock, hreceive, hbr, hlen, hunread, hlater, hidle⟩ :=
          s.receive_eq s.bufferInIndex hroom
        have hmoves :=
          moves_store h hunread hlater (by omega) (by rw [distance]; split_ifs <;> omega)
        rw [shift_eq hin (by omega), if_pos (by omega)] at hmoves
        rw [if_pos hroom, hreceive]
        dsimp only
        rw [hbr]
        exact ⟨hmoves, quiet_of_receive hunread hidle rfl⟩
      · rw [if_neg hroom]
        exact ⟨.refl h, hstill hempty⟩
    · rw [if_neg hbehind]
      dsimp only
      generalize hbytes : (if s.bufferOutIndex = 0 then sockBufferSize - s.bufferInIndex - 1
        else sockBufferSize - s.bufferInIndex) = bytesToRead
      by_cases hroom : 0 < bytesToRead
      · obtain ⟨br, bytes, sock, hreceive, hbr, hlen, hunread, hlater, hidle⟩ :=
          s.receive_eq s.bufferInIndex hroom
        have hend : s.bufferInIndex + bytes.length ≤ sockBufferSize := by
          split_ifs at hbytes <;> omega
        have hmoves :=
          moves_store h hunread hlater hend (by rw [distance]; split_ifs at hbytes ⊢ <;> omega)
        rw [if_pos hroom, hreceive]
        dsimp only
        rw [hbr]
        by_cases hwrap : 0 < bytes.length ∧ sockBufferSize ≤ s.bufferInIndex + bytes.length
        · -- the tail is full, and what is in front of the output index is filled next
          rw [shift_eq hin (by omega), if_neg (by omega), Nat.sub_eq_zero_of_le hend] at hmoves
          rw [if_pos hwrap]
          have hless : sock.unread.length < s.SWTsock.unread.length := by
            rw [hunread, List.length_append]
            omega
          by_cases hagain : 0 < s.bufferOutIndex - 1
          · have hmoves' := receiveStart_spec hmoves.inRing rfl rfl hagain
            rw [if_pos hagain]
            exact ⟨hmoves.trans hmoves', .inl (hmoves'.unread.trans_lt hless)⟩
          · rw [if_neg hagain]
            exact ⟨hmoves, .inl hless⟩
        · rw [shift_eq hin (by omega)] at hmoves
          rw [if_neg hwrap]
          by_cases hnil : bytes.length = 0
          · rw [hnil, Nat.add_zero, if_pos hin] at hmoves
            rw [hnil, Nat.add_zero]
            exact ⟨hmoves, quiet_of_receive hunread hidle rfl⟩
          · rw [if_pos (by omega)] at hmoves
            exact ⟨hmoves, quiet_of_receive hunread hidle rfl⟩
      · rw [if_neg hroom]
        exact ⟨.refl h, hstill hempty⟩

/-! ### One byte -/

structure Takes (s : SocketParser) (b : Byte) (s' : SocketParser) : Prop where
  inRing : s'.InRing
  rest : s.rest = b :: s'.rest
  unread : s'.SWTsock.unread.length ≤ s.SWTsock.unread.length
  arrivals : Later s.SWTsock.arrivals s'.SWTsock.arrivals
  pendingMsgIndex : s'.pendingMsgIndex = s.pendingMsgIndex
  msg : s'.msg = s.msg
  flushMessage : s'.flushMessage = s.flushMessage
  msgSlices : s'.msgSlices = s.msgSlices

/-- No byte has been taken, because none has arrived, or an error has occurred. -/
def Waits (s s' : SocketParser) : Prop :=
  s'.SWTsock.unread.length < s.SWTsock.unread.length ∨ s.rest = [] ∨ Idles s.SWTsock s'.SWTsock

theorem fillRing_grows (h : s.InRing) (hring : s.ring ≠ []) : s.fillRing.2.ring ≠ [] := by
  have hmoves := (fillRing_spec h).1
  have hrest := congrArg List.length hmoves.rest
  have hunread := hmoves.unread
  have hpos := List.length_pos_iff.mpr hring
  intro hnil
  rw [rest, rest, hnil, List.length_append, List.length_append, List.length_nil] at hrest
  omega

theorem nextByte_spec (h : s.InRing) :
    (∃ b s', s.nextByte = (.ok, some b, s') ∧ s.Takes b s') ∨
      ∃ rc s', s.nextByte = (rc, none, s') ∧ (rc = .ok ∨ rc = .err) ∧ s.Moves s' ∧ s.Waits s' := by
  obtain ⟨hmoves, hquiet⟩ := fillRing_spec h
  have hgrows := fillRing_grows h
  unfold nextByte bufferSWT
  rcases hfill : s.fillRing with ⟨_ | br, t⟩
  · rw [hfill] at hmoves hquiet
    refine .inr ⟨.err, { t with status := .err }, rfl, .inr rfl,
      ⟨⟨hmoves.inRing.1, hmoves.inRing.2⟩, hmoves.rest, hmoves.unread, hmoves.arrivals,
        hmoves.pendingMsgIndex, hmoves.msg, hmoves.flushMessage, hmoves.msgSlices⟩, ?_⟩
    rcases hquiet with hless | ⟨hbr, -⟩ | hwait
    · exact .inl hless
    · exact absurd rfl hbr
    · exact .inr hwait
  · rw [hfill] at hmoves hquiet hgrows
    dsimp only at hmoves hquiet hgrows ⊢
    by_cases hempty : t.bufferInIndex = t.bufferOutIndex
    · rw [if_pos hempty]
      refine .inr ⟨.ok, { t with status := .ok }, rfl, .inl rfl,
        ⟨⟨hmoves.inRing.1, hmoves.inRing.2⟩, hmoves.rest, hmoves.unread, hmoves.arrivals,
          hmoves.pendingMsgIndex, hmoves.msg, hmoves.flushMessage, hmoves.msgSlices⟩, ?_⟩
      rcases hquiet with hless | ⟨-, hring⟩ | hwait
      · exact .inl hless
      · exact absurd ((ring_eq_nil_iff hmoves.inRing).mpr hempty) (hgrows hring)
      · exact .inr hwait
    · rw [if_neg hempty]
      have hout := hmoves.inRing.bufferOutIndex
      have hnext : (if sockBufferSize ≤ t.bufferOutIndex + 1 then 0 else t.bufferOutIndex + 1) =
          shift sockBufferSize t.bufferOutIndex 1 := by
        rw [shift_eq hout (by decide)]
        split_ifs <;> omega
      rw [hnext]
      refine .inl ⟨_, _, rfl, ⟨hmoves.inRing.bufferInIndex, shift_lt (by decide)⟩, ?_,
        hmoves.unread, hmoves.arrivals, hmoves.pendingMsgIndex, hmoves.msg, hmoves.flushMessage,
          hmoves.msgSlices⟩
      rw [← hmoves.rest, rest, ring, cells_cons _ hout hmoves.inRing.bufferInIndex (Ne.symm hempty)]
      rfl

end SocketParser

end TraceDecoder
