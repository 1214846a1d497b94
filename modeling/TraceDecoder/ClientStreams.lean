import Mathlib.Tactic.Common
import TraceDecoder.IoConnections

/-!
# The streams of the clients

Every client gets the chunks that have been read since it was accepted, one behind the other, except
those that were read while its queue was longer than 512 KiB.
-/

namespace TraceDecoder

namespace IoConnections

variable {io : IoConnections} {chunks : List (List Byte)} {c : IoConnection}

/-- What a client has been sent and is to be sent is what has been read since it was accepted;
chunks are left out if the queue was longer than 512 KiB when they were read. -/
structure Faithful (chunks : List (List Byte)) (c : IoConnection) : Prop where
  offered : c.history.offered.map Prod.fst = chunks.drop c.history.joined
  stream : c.history.sent ++ c.bytesToSend =
    (c.history.offered.filter fun o => o.2 ≤ 512 * 1024).flatMap Prod.fst

/-- The queue of a client stays short enough for its length to be an `int`. -/
structure Served (chunks : List (List Byte)) (c : IoConnection) :
    Prop extends Faithful chunks c where
  joined : c.history.joined ≤ chunks.length
  queue : c.bytesToSend.length ≤ 512 * 1024 + SERIAL_BUFFER_NUMBYTES

theorem served_init (fd : ℤ) : Served chunks (.init fd chunks.length) :=
  ⟨⟨List.drop_length.symm, rfl⟩, Nat.le_refl _, Nat.zero_le _⟩

theorem Served.sendSome (h : Served chunks c) (n : ℕ) : Served chunks (c.sendSome n) := by
  refine ⟨⟨h.offered, ?_⟩, h.joined, ?_⟩
  · change c.history.sent ++ c.bytesToSend.take n ++ c.bytesToSend.drop n = _
    rw [List.append_assoc, List.take_append_drop]
    exact h.stream
  · change (c.bytesToSend.drop n).length ≤ _
    rw [List.length_drop]
    exact (Nat.sub_le _ _).trans h.queue

theorem getQueueLength_eq (h : c.bytesToSend.length ≤ 512 * 1024 + SERIAL_BUFFER_NUMBYTES) :
    c.getQueueLength = c.bytesToSend.length := by
  have hsmall : c.bytesToSend.length < 2 ^ 31 := lt_of_le_of_lt h (by decide)
  have htoNat : (BitVec.ofNat 32 c.bytesToSend.length).toNat = c.bytesToSend.length := by
    rw [BitVec.toNat_ofNat]
    exact Nat.mod_eq_of_lt (hsmall.trans (by decide))
  rw [IoConnection.getQueueLength, BitVec.toInt_eq_toNat_of_lt (by rw [htoNat]; omega), htoNat]

/-- A client that gets a chunk, or from which it is withheld. -/
theorem Served.queue_chunk (h : Served chunks c) {bytes : List Byte}
    (hbytes : bytes.length ≤ SERIAL_BUFFER_NUMBYTES) :
    Served (chunks ++ [bytes]) (if QUEUE_STALLED_CLIENT_SUSPICION_THRESHOLD <
        (c.offer bytes).getQueueLength then c.offer bytes
      else (c.offer bytes).enqueue bytes) := by
  have hlength : (c.offer bytes).getQueueLength = c.bytesToSend.length := getQueueLength_eq h.queue
  have hthreshold : QUEUE_STALLED_CLIENT_SUSPICION_THRESHOLD < (c.offer bytes).getQueueLength ↔
      ¬ c.bytesToSend.length ≤ 512 * 1024 := by
    rw [hlength, QUEUE_STALLED_CLIENT_SUSPICION_THRESHOLD]
    omega
  have hoffered : (c.history.offered ++ [(bytes, c.bytesToSend.length)]).map Prod.fst =
      (chunks ++ [bytes]).drop c.history.joined := by
    rw [List.map_append, h.offered, List.drop_append_of_le_length h.joined]
    rfl
  have hjoined : c.history.joined ≤ (chunks ++ [bytes]).length := by
    rw [List.length_append]
    exact h.joined.trans (Nat.le_add_right _ _)
  by_cases hshort : c.bytesToSend.length ≤ 512 * 1024
  · rw [if_neg (fun hlong => hthreshold.mp hlong hshort)]
    refine ⟨⟨hoffered, ?_⟩, hjoined, ?_⟩
    · change c.history.sent ++ (c.bytesToSend ++ bytes) =
        ((c.history.offered ++ [(bytes, c.bytesToSend.length)]).filter fun o => o.2 ≤ 512 *
          1024).flatMap Prod.fst
      have hkept : [(bytes, c.bytesToSend.length)].filter (fun o : List Byte × ℕ => o.2 ≤
          512 * 1024) = [(bytes, c.bytesToSend.length)] :=
            List.filter_cons_of_pos (decide_eq_true hshort)
      rw [← List.append_assoc, h.stream, List.filter_append, List.flatMap_append, hkept,
        List.flatMap_singleton]
    · change (c.bytesToSend ++ bytes).length ≤ _
      rw [List.length_append]
      omega
  · rw [if_pos (hthreshold.mpr hshort)]
    refine ⟨⟨hoffered, ?_⟩, hjoined, h.queue⟩
    change c.history.sent ++ c.bytesToSend =
      ((c.history.offered ++ [(bytes, c.bytesToSend.length)]).filter fun o => o.2 ≤ 512 *
        1024).flatMap Prod.fst
    have hleft : [(bytes, c.bytesToSend.length)].filter (fun o : List Byte × ℕ => o.2 ≤ 512 *
        1024) = [] :=
      List.filter_cons_of_neg (by rw [decide_eq_true_iff]; exact hshort)
    rw [h.stream, List.filter_append, List.flatMap_append, hleft]
    exact (List.append_nil _).symm

theorem Served.flag (h : Served chunks c) (b : Bool) : Served chunks { c with withholding := b } :=
  ⟨⟨h.offered, h.stream⟩, h.joined, h.queue⟩

theorem served_queueLoop {bytes : List Byte} (hbytes : bytes.length ≤ SERIAL_BUFFER_NUMBYTES)
    {cs : List IoConnection} (h : ∀ c ∈ cs, Served chunks c) (flag : Option Bool) :
    ∀ c ∈ queueLoop bytes (cs.map (·.offer bytes)) flag, Served (chunks ++ [bytes]) c := by
  induction cs generalizing flag with
  | nil => exact List.forall_mem_nil _
  | cons c cs ih =>
    obtain ⟨hc, hcs⟩ := List.forall_mem_cons.mp h
    rw [List.map_cons, queueLoop]
    refine List.forall_mem_cons.mpr ⟨?_, ih hcs _⟩
    have hqueue := (hc.flag (flag.getD c.withholding)).queue_chunk hbytes
    simp only [decide_eq_true_eq]
    exact hqueue

theorem served_recvLoop (recv : ℕ → Option ℤ) (i : ℕ) {cs : List IoConnection}
    (h : ∀ c ∈ cs, Served chunks c) :
    ∀ c ∈ recvLoop recv i cs, Served chunks c := by
  induction cs generalizing i with
  | nil => exact List.forall_mem_nil _
  | cons c cs ih =>
    obtain ⟨hc, hcs⟩ := List.forall_mem_cons.mp h
    have hrest := ih (i + 1) hcs
    rw [recvLoop]
    cases recv i with
    | none => exact List.forall_mem_cons.mpr ⟨hc, hrest⟩
    | some numrecv =>
      dsimp only
      split_ifs
      · exact hrest
      · exact List.forall_mem_cons.mpr ⟨hc, hrest⟩

theorem served_sendLoop (send : ℕ → ℤ) (i : ℕ) {cs : List IoConnection}
    (h : ∀ c ∈ cs, Served chunks c) :
    ∀ c ∈ sendLoop send i cs, Served chunks c := by
  induction cs generalizing i with
  | nil => exact List.forall_mem_nil _
  | cons c cs ih =>
    obtain ⟨hc, hcs⟩ := List.forall_mem_cons.mp h
    have hrest := ih (i + 1) hcs
    rw [sendLoop]
    split_ifs
    · exact hrest
    · exact List.forall_mem_cons.mpr ⟨hc.sendSome _, hrest⟩
    · exact List.forall_mem_cons.mpr ⟨hc, hrest⟩

def AllServed (io : IoConnections) : Prop := ∀ c ∈ io.connections, Served io.chunks c

theorem allServed_acceptClient (h : AllServed io) (accept : Option ℤ) :
    AllServed (io.acceptClient accept) := by
  cases accept with
  | none => exact h
  | some fd =>
    rw [acceptClient]
    split_ifs
    · exact List.forall_mem_append.mpr ⟨h, List.forall_mem_singleton.mpr (served_init fd)⟩
    · exact h

theorem allServed_serialLoop (serial : List (List Byte)) (h : AllServed io) :
    AllServed (serialLoop serial io) := by
  induction serial generalizing io with
  | nil => exact h
  | cons available rest ih =>
    rw [serialLoop]
    have hbytes : (available.take SERIAL_BUFFER_NUMBYTES).length ≤ SERIAL_BUFFER_NUMBYTES :=
      List.length_take_le _ _
    set bytes := available.take SERIAL_BUFFER_NUMBYTES
    have hprint : (io.printMessages bytes).connections = io.connections ∧
        (io.printMessages bytes).chunks = io.chunks := by
      rw [printMessages]
      split_ifs <;> exact ⟨rfl, rfl⟩
    have hone : AllServed (if bytes = [] then io.closeSerial
        else ((io.printMessages bytes).record bytes).queueSerialBytesToClients bytes) := by
      split_ifs
      · exact h
      · have hqueue := served_queueLoop hbytes h none
        change ∀ c ∈ queueLoop bytes ((io.printMessages bytes).connections.map (·.offer bytes))
          none, Served ((io.printMessages bytes).chunks ++ [bytes]) c
        rw [hprint.1, hprint.2]
        exact hqueue
    by_cases hmore : bytes.length = SERIAL_BUFFER_NUMBYTES
    · rw [if_pos hmore]
      exact ih hone
    · rw [if_neg hmore]
      exact hone

theorem allServed_serviceConnections (h : AllServed io) (a : Activity) :
    AllServed (io.serviceConnections a) := by
  rw [serviceConnections]
  split_ifs
  · have hserial := allServed_serialLoop a.serial (allServed_acceptClient h a.accept)
    exact served_sendLoop a.send 0 (served_recvLoop a.recv 0 hserial)
  · exact h

theorem allServed_run (h : AllServed io) (ops : List Op) : AllServed (io.run ops) := by
  induction ops generalizing io with
  | nil => exact h
  | cons op ops ih =>
    cases op with
    | service a => exact ih (allServed_serviceConnections h a)
    | setSerialDevice serialFd => exact ih h

/-- After any run, each client that is connected has been sent, or is to be sent, the
chunks that have been read since it was accepted, without those that were read while its
queue was longer than 512 KiB. -/
theorem run_faithful (srcbits : ℕ) (serialFd : ℤ) (userDebugOutput itcPrint : Bool)
    (itcPrintChannel : BitVec 32) (ops : List Op) :
    ∀ c ∈ ((init srcbits serialFd userDebugOutput itcPrint itcPrintChannel).run ops).connections,
      Faithful ((init srcbits serialFd userDebugOutput itcPrint itcPrintChannel).run ops).chunks
        c := by
  intro c hc
  have hinit : AllServed (init srcbits serialFd userDebugOutput itcPrint itcPrintChannel) :=
    List.forall_mem_nil _
  exact (allServed_run hinit ops c hc).toFaithful

/-- A client is accepted, and then a chunk is read, of which one byte is sent. -/
def firstChunk : List Op := [.service ⟨true, some 5, [[0x41, 0x42]], fun _ => none, fun _ => 1⟩]

theorem run_faithful_firstChunk : ∃ c ∈ ((init 0 3 false false 0).run firstChunk).connections,
    c.bytesToSend = [0x42] ∧
    Faithful ((init 0 3 false false 0).run firstChunk).chunks c := by
  have hmem : _ ∈ ((init 0 3 false false 0).run firstChunk).connections := List.mem_cons_self
  exact ⟨_, hmem, rfl, run_faithful 0 3 false false 0 firstChunk _ hmem⟩

end IoConnections

end TraceDecoder
