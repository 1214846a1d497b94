import TraceDecoder.CTFLayout

/-!
# The stream of a core

Events are written as bytes of the declared layout, and put together to packets. What is kept for a
core are the events in its buffer and the packets in its file.
-/

namespace TraceDecoder

open ByteReader

namespace CTF

def Fields.IsCall (f : Fields) : Prop := f.id = 1 ∨ f.id = 2

def Packet.fields (p : Packet) : List Fields := p.events.map Event.fields

def Packet.IsStateDump (p : Packet) : Prop := p.fields.map Fields.id = [3, 4, 7]

def Packet.IsEventPacket (p : Packet) : Prop := ∀ f ∈ p.fields, f.IsCall

/-- The ids of the streams that the metadata declares. There is one stream,
which the events belong to. -/
def declaredStreams : List (BitVec 32) := [0]

def PacketHeader.Declared (declares : BitVec 32 → Prop) (h : PacketHeader) : Prop :=
  h.magic = 0xc1fc1fc1 ∧ declares h.stream_id

/-- A reader that knows the given streams reads the file as one state dump and packets with the
given events; the sizes in each packet are 8 times the number of bytes it is read from. -/
def HoldsEvents (declares : BitVec 32 → Prop) (file : List Byte) (added : List Fields) : Prop :=
  ∃ dump packets, readFile file = some (dump :: packets) ∧ dump.2.IsStateDump ∧
    (∀ p ∈ packets, p.2.IsEventPacket) ∧
    (∀ p ∈ dump :: packets, p.2.header.Declared declares ∧
      p.2.context.content_size.toNat = 8 * p.1.length ∧ p.2.context.packet_size.toNat =
        8 * p.1.length) ∧
    (packets.flatMap fun p => p.2.fields) = added

end CTF

/-! ### What is written for an event -/

def CTFEvent.IsCall (e : CTFEvent) : Prop :=
  e.et = event_funcEntry.setWidth 32 ∨ e.et = event_funcExit.setWidth 32

def CTFEvent.fields (e : CTFEvent) : CTF.Fields :=
  if e.et = event_funcEntry.setWidth 32 then .func_entry e.pc e.pcDst else .func_exit e.pc e.pcDst

def CTFSettings.context (t : CTFSettings) (core : ℕ) : CTF.EventContext :=
  ⟨1, BitVec.ofNat 32 core, t.procname⟩

def CTFEvent.event (t : CTFSettings) (core : ℕ) (e : CTFEvent) : CTF.Event where
  header :=
    if e.event_id = event_extended then .extended e.word e.timestamp else .compact e.event_id e.word
  context := t.context core
  fields := e.fields

namespace CTFCore

variable (t : CTFSettings) (core : ℕ) {c : CTFCore} {e : CTFEvent}

theorem write_write (bytes bytes' : List Byte) : (c.write bytes).write bytes' = c.write
    (bytes ++ bytes') := by
  rw [write, write, write, List.append_assoc]

theorem length_procname : t.procname.length = 17 := by
  rw [CTFSettings.procname, List.length_append, List.length_replicate, List.length_take]
  omega

theorem writeEvent_eq (he : e.IsCall) : c.writeEvent t core e = c.write (e.event t core).bytes := by
  have hheader : (e.event t core).header.bytes =
      ofWord e.event_id ++ if e.event_id = event_extended then ofWord e.word ++ ofWord e.timestamp
        else ofWord e.word := by
    unfold CTFEvent.event
    split_ifs with hid
    · rw [hid]
      rfl
    · rfl
  have hfields : e.fields.bytes = ofWord e.pc ++ ofWord e.pcDst := by
    unfold CTFEvent.fields
    split_ifs <;> rfl
  have hwrite (c : CTFCore) : (if e.et = event_funcEntry.setWidth 32
      then c.write (ofWord e.pc ++ ofWord e.pcDst) else if e.et = event_funcExit.setWidth 32
        then c.write (ofWord e.pc ++ ofWord e.pcDst) else c) =
      c.write (ofWord e.pc ++ ofWord e.pcDst) := by
    rcases he with he | he
    · rw [if_pos he]
    · rw [if_pos he, ite_self]
  unfold writeEvent CTF.Event.bytes
  dsimp only
  rw [hwrite, hheader, show (e.event t core).fields = e.fields from rfl, hfields, write_write,
    write_write, write_write, List.append_assoc]
  rfl

theorem eventSize_eq (he : e.IsCall) : eventSize e = some (e.event t core).bytes.length := by
  have hheader : (e.event t core).header.bytes.length = if e.event_id = event_extended then 2 + 12
      else 2 + 4 := by
    unfold CTFEvent.event
    split_ifs <;> rfl
  have hcontext : (e.event t core).context.bytes.length = 25 := by
    change (ofWord 1#32 ++ (ofWord (BitVec.ofNat 32 core) ++ t.procname)).length = 25
    rw [List.length_append, List.length_append, length_ofWord, length_ofWord, length_procname t]
  have hfields : (e.event t core).fields.bytes.length = 16 := by
    change e.fields.bytes.length = 16
    unfold CTFEvent.fields
    split_ifs <;> rfl
  rw [CTF.Event.bytes, List.length_append, List.length_append, hheader, hcontext, hfields]
  unfold eventSize
  dsimp only
  rcases he with he | he
  · rw [if_pos he]
  · rw [if_pos he, ite_self]

theorem length_events_le {es : List CTFEvent} (h : ∀ e ∈ es, e.IsCall) :
    ((es.map (CTFEvent.event t core)).flatMap CTF.Event.bytes).length ≤ 55 * es.length := by
  induction es with
  | nil => exact Nat.le_refl _
  | cons e es ih =>
    have hle : (e.event t core).bytes.length ≤ 55 := by
      have hsize := eventSize_eq t core (h e List.mem_cons_self)
      unfold eventSize at hsize
      dsimp only at hsize
      split_ifs at hsize <;> rw [← Option.some.inj hsize] <;> decide
    have hes := ih fun e he => h e (List.mem_cons_of_mem _ he)
    rw [List.map_cons, List.flatMap_cons, List.length_append, List.length_cons]
    omega

theorem event_wellFormed (he : e.IsCall) : (e.event t core).WellFormed := by
  have hid : (e.event t core).header.id = e.et.toNat := by
    unfold CTFEvent.event CTFEvent.et
    split_ifs
    · rfl
    · exact (BitVec.toNat_setWidth_of_le (by decide)).symm
  refine ⟨?_, length_procname t, ?_, ?_⟩
  · unfold CTFEvent.event
    split_ifs with hext
    · exact trivial
    · exact hext
  · rw [hid]
    unfold CTFEvent.event CTFEvent.fields
    dsimp only
    rcases he with he | he
    · rw [if_pos he, he]
      rfl
    · rw [if_neg (by rw [he]; decide), he]
      rfl
  · unfold CTFEvent.event CTFEvent.fields
    dsimp only
    split_ifs <;> exact trivial

def buffered (c : CTFCore) : List CTFEvent := (List.range c.eventIndex).map c.eventBuffer

theorem computeEventSizes_eq (h : ∀ e ∈ c.buffered, e.IsCall) :
    c.computeEventSizes = some
      ((c.buffered.map (CTFEvent.event t core)).flatMap CTF.Event.bytes).length := by
  have hfold (es : List CTFEvent) (h : ∀ e ∈ es, e.IsCall) (size : ℕ) :
      es.foldlM (fun size e => (eventSize e).map (size + ·)) size =
        some (size + ((es.map (CTFEvent.event t core)).flatMap CTF.Event.bytes).length) := by
    induction es generalizing size with
    | nil => rfl
    | cons e es ih =>
      rw [List.foldlM_cons, eventSize_eq t core (h e List.mem_cons_self)]
      exact (ih (fun e he => h e (List.mem_cons_of_mem _ he)) _).trans (by
        rw [List.map_cons, List.flatMap_cons, List.length_append, Nat.add_assoc])
  exact (hfold c.buffered h 0).trans (congrArg some (Nat.zero_add _))

theorem writeEvents_eq (h : ∀ e ∈ c.buffered, e.IsCall) :
    c.writeEvents t core = c.write
      ((c.buffered.map (CTFEvent.event t core)).flatMap CTF.Event.bytes) := by
  have hfold (es : List CTFEvent) (h : ∀ e ∈ es, e.IsCall) (c : CTFCore) :
      es.foldl (fun c e => c.writeEvent t core e) c =
        c.write ((es.map (CTFEvent.event t core)).flatMap CTF.Event.bytes) := by
    induction es generalizing c with
    | nil =>
      change c = { c with file := c.file ++ [] }
      rw [List.append_nil]
    | cons e es ih =>
      rw [List.foldl_cons, writeEvent_eq t core (h e List.mem_cons_self),
        ih (fun e he => h e (List.mem_cons_of_mem _ he)), write_write, List.map_cons,
          List.flatMap_cons]
  exact hfold c.buffered h c

/-! ### Packets -/

def packet (packetSeqNum : ℕ) (ts_begin ts_end : TIMESTAMP) (size : ℕ) (events : List CTF.Event) :
    CTF.Packet where
  header := ⟨0xc1fc1fc1, BitVec.ofNat 32 core⟩
  context := ⟨ts_begin, ts_end, BitVec.ofNat 64 (size * 8 + 52 * 8 + 8 * 8), BitVec.ofNat 64
    (size * 8 + 52 * 8 + 8 * 8), seqNum packetSeqNum, 0, BitVec.ofNat 32 core⟩
  events := events

theorem writeStreamHeaders_write (packetSeqNum : ℕ) (ts_begin ts_end : TIMESTAMP) (size : ℕ)
    (events : List CTF.Event) :
    (c.writeStreamHeaders core packetSeqNum ts_begin ts_end size).write
    (events.flatMap CTF.Event.bytes) =
      c.write (packet core packetSeqNum ts_begin ts_end size events).bytes := by
  unfold writeStreamHeaders writeTracePacketHeader writeStreamPacketContext
  rw [write_write, write_write, List.append_assoc]
  rfl

theorem packet_wellFormed (packetSeqNum : ℕ) (ts_begin ts_end : TIMESTAMP) {size : ℕ}
    {events : List CTF.Event}
    (hevents : ∀ e ∈ events, e.WellFormed) (hsize : size = (events.flatMap CTF.Event.bytes).length)
    (hlt : size < 2 ^ 32) : (packet core packetSeqNum ts_begin ts_end size events).WellFormed := by
  have hbits : (BitVec.ofNat 64 (size * 8 + 52 * 8 + 8 * 8)).toNat =
      8 * (packet core packetSeqNum ts_begin ts_end size events).bytes.length := by
    rw [CTF.Packet.length_bytes, BitVec.toNat_ofNat, Nat.mod_eq_of_lt (by omega)]
    change _ = 8 * (60 + (events.flatMap CTF.Event.bytes).length)
    omega
  exact ⟨hevents, hbits, hbits⟩

def stateDump (timestamp : TIMESTAMP) : List CTF.Event :=
  [⟨.extended 3 timestamp, t.context core, .start⟩,
    ⟨.extended 4 timestamp, t.context core, .bin_info 0x40000000 0x10000000 t.fullName 0 0 0⟩,
    ⟨.extended 7 timestamp, t.context core, .stop⟩]

theorem writeBinInfo_eq (packetSeqNum : ℕ) (timestamp : TIMESTAMP) :
    c.writeBinInfo t core packetSeqNum timestamp =
    c.write (packet core packetSeqNum timestamp timestamp (computeBinInfoSize t)
        (stateDump t core timestamp)).bytes := by
  rw [← writeStreamHeaders_write]
  unfold writeBinInfo writeStateDumpHeader
  dsimp only
  simp only [stateDump, List.flatMap_cons, List.flatMap_nil, CTF.Event.bytes, CTF.EventHeader.bytes,
    CTF.Fields.bytes, write_write, List.append_assoc, List.append_nil]
  rfl

theorem stateDump_wellFormed (timestamp : TIMESTAMP) :
    ∀ e ∈ stateDump t core timestamp, e.WellFormed := by
  have hname : ∀ b ∈ t.fullName, b ≠ 0 := t.chars
  have hcontext : (t.context core)._procname.length = 17 := length_procname t
  intro e he
  rcases List.mem_cons.mp he with rfl | he
  · exact ⟨trivial, hcontext, rfl, trivial⟩
  · rcases List.mem_cons.mp he with rfl | he
    · exact ⟨trivial, hcontext, rfl, hname⟩
    · rw [List.mem_singleton.mp he]
      exact ⟨trivial, hcontext, rfl, trivial⟩

theorem computeBinInfoSize_eq (timestamp : TIMESTAMP) :
    computeBinInfoSize t = ((stateDump t core timestamp).flatMap CTF.Event.bytes).length := by
  have hcontext : (t.context core).bytes.length = 25 := by
    change (ofWord 1#32 ++ (ofWord (BitVec.ofNat 32 core) ++ t.procname)).length = 25
    rw [List.length_append, List.length_append, length_ofWord, length_ofWord, length_procname t]
  simp only [stateDump, List.flatMap_cons, List.flatMap_nil, List.length_append, CTF.Event.bytes,
    hcontext, CTF.EventHeader.bytes, CTF.Fields.bytes, length_ofWord, List.length_cons,
      List.length_nil, computeBinInfoSize]
  omega

theorem computeBinInfoSize_lt : computeBinInfoSize t < 2 ^ 32 := by
  have hpath := t.elfPath_length
  have hname := t.elfName_length
  rw [computeBinInfoSize, CTFSettings.fullName, List.length_append]
  omega

/-! ### What is kept for a core -/

def IsStream (packets : List CTF.Packet) (calls : List CTF.Fields) : Prop :=
  ∃ dump rest, packets = dump :: rest ∧ dump.IsStateDump ∧ (∀ p ∈ rest, p.IsEventPacket) ∧
    rest.flatMap CTF.Packet.fields = calls

theorem IsStream.append {packets : List CTF.Packet} {calls : List CTF.Fields}
    (h : IsStream packets calls) {p : CTF.Packet}
    (hp : p.IsEventPacket) : IsStream (packets ++ [p]) (calls ++ p.fields) := by
  obtain ⟨dump, rest, rfl, hdump, hrest, rfl⟩ := h
  refine ⟨dump, rest ++ [p], rfl, hdump, fun q hq => ?_, ?_⟩
  · rcases List.mem_append.mp hq with hq | hq
    · exact hrest q hq
    · rw [List.mem_singleton.mp hq]
      exact hp
  · rw [List.flatMap_append, List.flatMap_singleton]

/-- A packet that can be read, with the number of the core for the id of its stream. -/
structure PacketOf (core : ℕ) (p : CTF.Packet) : Prop extends CTF.Packet.WellFormed p where
  header : p.header = ⟨0xc1fc1fc1, BitVec.ofNat 32 core⟩

/-- The events that were added are in the packets of the file or in the buffer. -/
structure Follows (c : CTFCore) (core : ℕ) (added : List CTF.Fields) : Prop where
  index : c.eventIndex ≤ DQR_MAXCORES
  allocated : 0 < c.eventIndex → c.allocated = true
  calls : ∀ e ∈ c.buffered, e.IsCall
  log : ∃ packets calls, c.file = packets.flatMap CTF.Packet.bytes ∧
    (∀ p ∈ packets, PacketOf core p) ∧ added = calls ++ c.buffered.map CTFEvent.fields ∧
    if c.headerFlag then calls ≠ [] ∧ IsStream packets calls else packets = [] ∧ calls = []

theorem follows_init (memory : ℕ → CTFEvent) : Follows ⟨[], false, memory, 0, false⟩ core [] where
  index := Nat.zero_le _
  allocated := fun h => absurd h (Nat.lt_irrefl 0)
  calls := List.forall_mem_nil _
  log := ⟨[], [], rfl, List.forall_mem_nil _, rfl, rfl, rfl⟩

theorem fields_isCall (e : CTFEvent) : e.fields.IsCall := by
  unfold CTFEvent.fields
  split_ifs
  · exact Or.inl rfl
  · exact Or.inr rfl

/-- The state dump is written in front of the first packet. -/
theorem Follows.header {added : List CTF.Fields} (h : c.Follows core added) (packetSeqNum : ℕ)
    (timestamp : TIMESTAMP) :
    ∃ packets calls, (∀ p ∈ packets, PacketOf core p) ∧
      added = calls ++ c.buffered.map CTFEvent.fields ∧ IsStream packets calls ∧
      (if !c.headerFlag then { c.writeBinInfo t core packetSeqNum timestamp with headerFlag :=
  true } else c) =
        { c with file := packets.flatMap CTF.Packet.bytes, headerFlag := true } := by
  obtain ⟨packets, calls, hfile, hpackets, hadded, hstream⟩ := h.log
  by_cases hflag : c.headerFlag = true
  · rw [if_pos hflag] at hstream
    rw [if_neg (by simp [hflag])]
    refine ⟨packets, calls, hpackets, hadded, hstream.2, ?_⟩
    rw [← hfile, ← hflag]
  · rw [if_neg hflag] at hstream
    obtain ⟨rfl, rfl⟩ := hstream
    have hdump : PacketOf core (packet core packetSeqNum timestamp timestamp (computeBinInfoSize t)
        (stateDump t core timestamp)) :=
      ⟨packet_wellFormed core packetSeqNum timestamp timestamp
        (stateDump_wellFormed t core timestamp) (computeBinInfoSize_eq t core timestamp)
          (computeBinInfoSize_lt t), rfl⟩
    generalize hpacket : packet core packetSeqNum timestamp timestamp (computeBinInfoSize t)
      (stateDump t core timestamp) = p at hdump
    have hstateDump : p.IsStateDump := by
      rw [← hpacket]
      rfl
    refine ⟨[p], [], List.forall_mem_singleton.mpr hdump, hadded,
      ⟨p, [], rfl, hstateDump, List.forall_mem_nil _, rfl⟩, ?_⟩
    rw [if_pos (by simp [hflag]), writeBinInfo_eq, hpacket, write, hfile, List.flatMap_nil,
      List.nil_append, List.flatMap_singleton]

theorem Follows.events {added : List CTF.Fields} (h : c.Follows core added)
    (hindex : 0 < c.eventIndex) {packets : List CTF.Packet}
    {calls : List CTF.Fields} (hpackets : ∀ p ∈ packets, PacketOf core p)
    (hadded : added = calls ++ c.buffered.map CTFEvent.fields) (hstream : IsStream packets calls) :
    ∃ size, c.computeEventSizes = some size ∧ ∀ (packetSeqNum : ℕ) (ts_begin ts_end : TIMESTAMP),
      (({ c with file := packets.flatMap CTF.Packet.bytes, headerFlag := true }.writeStreamHeaders
        core packetSeqNum
        ts_begin ts_end size).writeEvents t core).allocated = c.allocated ∧
      Follows { ({ c with file := packets.flatMap CTF.Packet.bytes, headerFlag := true }.writeStreamHeaders core packetSeqNum
        ts_begin ts_end size).writeEvents t core with eventIndex := 0 } core added := by
  have hlength : c.buffered.length = c.eventIndex := by
    rw [buffered, List.length_map, List.length_range]
  obtain ⟨size, hsize⟩ : ∃ size, size = ((c.buffered.map (CTFEvent.event t core)).flatMap
    CTF.Event.bytes).length := ⟨_, rfl⟩
  have hlt : size < 2 ^ 32 := by
    have hle := length_events_le t core h.calls
    have hindex := h.index
    rw [DQR_MAXCORES] at hindex
    omega
  refine ⟨size, (computeEventSizes_eq t core h.calls).trans (congrArg some hsize.symm),
    fun packetSeqNum ts_begin ts_end => ?_⟩
  have hwellFormed : PacketOf core
      (packet core packetSeqNum ts_begin ts_end size (c.buffered.map (CTFEvent.event t core))) :=
    ⟨packet_wellFormed core packetSeqNum ts_begin ts_end
      (List.forall_mem_map.mpr fun e he => event_wellFormed t core (h.calls e he)) hsize hlt, rfl⟩
  obtain ⟨c', hc'⟩ : ∃ c',
    c' = { c with file := packets.flatMap CTF.Packet.bytes, headerFlag := true } := ⟨_, rfl⟩
  have hbuffered : (c'.writeStreamHeaders core packetSeqNum ts_begin ts_end size).buffered =
      c.buffered := by
    rw [hc']
    rfl
  have hwrite : (c'.writeStreamHeaders core packetSeqNum ts_begin ts_end size).writeEvents t core =
      c'.write (packet core packetSeqNum ts_begin ts_end size
        (c.buffered.map (CTFEvent.event t core))).bytes := by
    rw [writeEvents_eq t core (hbuffered ▸ h.calls), hbuffered, writeStreamHeaders_write]
  have hfields : (packet core packetSeqNum ts_begin ts_end size
    (c.buffered.map (CTFEvent.event t core))).fields = c.buffered.map CTFEvent.fields :=
      List.map_map
  generalize packet core packetSeqNum ts_begin ts_end size
    (c.buffered.map (CTFEvent.event t core)) = p at hwellFormed hwrite hfields
  rw [← hc', hwrite, hc']
  have hevents : p.IsEventPacket := by
    rw [CTF.Packet.IsEventPacket, hfields]
    exact List.forall_mem_map.mpr fun e _ => fields_isCall e
  refine ⟨rfl, Nat.zero_le _, fun hzero => absurd hzero (Nat.lt_irrefl 0), List.forall_mem_nil _,
    packets ++ [p], calls ++ p.fields, ?_, ?_, ?_, ?_⟩
  · rw [List.flatMap_append, List.flatMap_singleton]
    rfl
  · intro q hq
    rcases List.mem_append.mp hq with hq | hq
    · exact hpackets q hq
    · rwa [List.mem_singleton.mp hq]
  · rw [hadded, hfields]
    exact (List.append_nil _).symm
  · refine (if_pos rfl).mpr ⟨?_, hstream.append hevents⟩
    rw [hfields]
    refine List.append_ne_nil_of_right_ne_nil _ (List.ne_nil_of_length_pos ?_)
    rw [List.length_map, hlength]
    exact hindex

theorem Follows.put {added : List CTF.Fields} (h : c.Follows core added)
    (hindex : c.eventIndex < DQR_MAXCORES) (hallocated : c.allocated = true) (he : e.IsCall) :
    Follows { c with eventBuffer := fun i => if i = c.eventIndex then e else c.eventBuffer i, eventIndex := c.eventIndex + 1 }
      core (added ++ [e.fields]) := by
  have hbuffered : buffered { c with
      eventBuffer := fun i => if i = c.eventIndex then e else c.eventBuffer i,
        eventIndex := c.eventIndex + 1 } =
      c.buffered ++ [e] := by
    unfold buffered
    rw [List.range_succ, List.map_append, List.map_singleton]
    refine congrArg₂ (· ++ [·]) (List.map_congr_left fun i hi => if_neg ?_) (if_pos rfl)
    exact Nat.ne_of_lt (List.mem_range.mp hi)
  obtain ⟨packets, calls, hfile, hpackets, hadded, hstream⟩ := h.log
  refine ⟨hindex, fun _ => hallocated, ?_, packets, calls, hfile, hpackets, ?_, hstream⟩
  · rw [hbuffered]
    exact List.forall_mem_append.mpr ⟨h.calls, List.forall_mem_singleton.mpr he⟩
  · rw [hbuffered, hadded, List.map_append, List.map_singleton, List.append_assoc]

end CTFCore

end TraceDecoder
