import TraceDecoder.CTFConverter

/-!
# The layout of a CTF stream

The structures that the metadata declares for packets and events, with the bytes of each and its
reader. An event has a compact or an extended header. A reader does not look up the id of a stream.
-/

namespace TraceDecoder

namespace CTF

open ByteReader

structure PacketHeader where
  (magic stream_id : BitVec 32)
  deriving DecidableEq, Repr

structure PacketContext where
  (timestamp_begin timestamp_end : BitVec 64)
  (content_size packet_size packet_seq_num events_discarded : BitVec 64)
  cpu_id : BitVec 32
  deriving DecidableEq, Repr

inductive EventHeader
  | compact (id : BitVec 16) (timestamp : BitVec 32)
  | extended (id : BitVec 32) (timestamp : BitVec 64)
  deriving DecidableEq, Repr

structure EventContext where
  (_vpid _vtid : BitVec 32)
  _procname : List Byte
  deriving DecidableEq, Repr

inductive Fields
  | func_entry (_addr _call_site : BitVec 64)
  | func_exit (_addr _call_site : BitVec 64)
  | start
  | bin_info (_baddr _memsz : BitVec 64) (_path : List Byte)
    (_is_pic _has_build_id _has_debug_link : Byte)
  | stop
  deriving DecidableEq, Repr

structure Event where
  header : EventHeader
  context : EventContext
  fields : Fields
  deriving DecidableEq, Repr

structure Packet where
  header : PacketHeader
  context : PacketContext
  events : List Event
  deriving DecidableEq, Repr

/-! ### Readers -/

def PacketHeader.read : ByteReader PacketHeader := do
  let magic ← word 32
  let stream_id ← word 32
  pure ⟨magic, stream_id⟩

def PacketContext.read : ByteReader PacketContext := do
  let timestamp_begin ← word 64
  let timestamp_end ← word 64
  let content_size ← word 64
  let packet_size ← word 64
  let packet_seq_num ← word 64
  let events_discarded ← word 64
  let cpu_id ← word 32
  pure ⟨timestamp_begin, timestamp_end, content_size, packet_size, packet_seq_num, events_discarded,
    cpu_id⟩

def EventHeader.read : ByteReader EventHeader := do
  let id ← word 16
  if id = 65535 then do
    let id ← word 32
    let timestamp ← word 64
    pure (.extended id timestamp)
  else do
    let timestamp ← word 32
    pure (.compact id timestamp)

def EventHeader.id : EventHeader → ℕ
  | .compact id _ => id.toNat
  | .extended id _ => id.toNat

def EventContext.read : ByteReader EventContext := do
  let _vpid ← word 32
  let _vtid ← word 32
  let _procname ← next 17
  pure ⟨_vpid, _vtid, _procname⟩

def Fields.read : ℕ → ByteReader Fields
  | 1 => do
    let _addr ← word 64
    let _call_site ← word 64
    pure (.func_entry _addr _call_site)
  | 2 => do
    let _addr ← word 64
    let _call_site ← word 64
    pure (.func_exit _addr _call_site)
  | 3 => pure .start
  | 4 => do
    let _baddr ← word 64
    let _memsz ← word 64
    let _path ← string
    let _is_pic ← word 8
    let _has_build_id ← word 8
    let _has_debug_link ← word 8
    pure (.bin_info _baddr _memsz _path _is_pic _has_build_id _has_debug_link)
  | 7 => pure .stop
  | _ => failure

def Event.read : ByteReader Event := do
  let header ← EventHeader.read
  let context ← EventContext.read
  let fields ← Fields.read header.id
  pure ⟨header, context, fields⟩

def Packet.read : ByteReader Packet := do
  let header ← PacketHeader.read
  let context ← PacketContext.read
  let events ← within (context.content_size.toNat / 8 - 60) Event.read
  let _ ← next (context.packet_size.toNat / 8 - context.content_size.toNat / 8)
  pure ⟨header, context, events⟩

def readFile (file : List Byte) : Option (List (List Byte × Packet)) :=
  toEnd (consumed Packet.read) file.length file

/-! ### Bytes -/

def PacketHeader.bytes (h : PacketHeader) : List Byte := ofWord h.magic ++ ofWord h.stream_id

def PacketContext.bytes (c : PacketContext) : List Byte :=
  ofWord c.timestamp_begin ++
    (ofWord c.timestamp_end ++
      (ofWord c.content_size ++
      (ofWord c.packet_size ++ (ofWord c.packet_seq_num ++ (ofWord c.events_discarded ++
      ofWord c.cpu_id)))))

def EventHeader.bytes : EventHeader → List Byte
  | .compact id timestamp => ofWord id ++ ofWord timestamp
  | .extended id timestamp => ofWord 65535#16 ++ (ofWord id ++ ofWord timestamp)

def EventContext.bytes (c : EventContext) : List Byte :=
  ofWord c._vpid ++ (ofWord c._vtid ++ c._procname)

def Fields.bytes : Fields → List Byte
  | .func_entry _addr _call_site => ofWord _addr ++ ofWord _call_site
  | .func_exit _addr _call_site => ofWord _addr ++ ofWord _call_site
  | .start => []
  | .bin_info _baddr _memsz _path _is_pic _has_build_id _has_debug_link =>
    ofWord _baddr ++ (ofWord _memsz ++
      ((_path ++ [0]) ++ (ofWord _is_pic ++ (ofWord _has_build_id ++ ofWord _has_debug_link))))
  | .stop => []

def Event.bytes (e : Event) : List Byte := e.header.bytes ++ (e.context.bytes ++ e.fields.bytes)

def Packet.bytes (p : Packet) : List Byte :=
  p.header.bytes ++ (p.context.bytes ++ p.events.flatMap Event.bytes)

/-! ### What the readers take -/

theorem PacketHeader.reads (h : PacketHeader) : Reads PacketHeader.read h.bytes h :=
  (reads_word rfl h.magic).bind (reads_word rfl h.stream_id).bind_pure

theorem PacketContext.reads (c : PacketContext) : Reads PacketContext.read c.bytes c :=
  (reads_word rfl c.timestamp_begin).bind <| (reads_word rfl c.timestamp_end).bind <|
    (reads_word rfl c.content_size).bind <| (reads_word rfl c.packet_size).bind <|
      (reads_word rfl c.packet_seq_num).bind <| (reads_word rfl c.events_discarded).bind
        (reads_word rfl c.cpu_id).bind_pure

def EventHeader.WellFormed : EventHeader → Prop
  | .compact id _ => id ≠ 65535
  | .extended _ _ => True

theorem EventHeader.reads {h : EventHeader} (hh : h.WellFormed) :
    Reads EventHeader.read h.bytes h := by
  cases h with
  | compact id timestamp =>
    refine (reads_word rfl id).bind ?_
    rw [if_neg hh]
    exact (reads_word rfl timestamp).bind_pure
  | extended id timestamp =>
    refine (reads_word rfl 65535#16).bind ?_
    rw [if_pos (show 65535#16 = 65535 from rfl)]
    exact (reads_word rfl id).bind (reads_word rfl timestamp).bind_pure

theorem EventContext.reads {c : EventContext} (hc : c._procname.length = 17) :
    Reads EventContext.read c.bytes c := by
  have hprocname := reads_next c._procname
  rw [hc] at hprocname
  exact (reads_word rfl c._vpid).bind <| (reads_word rfl c._vtid).bind hprocname.bind_pure

def Fields.id : Fields → ℕ
  | .func_entry _ _ => 1
  | .func_exit _ _ => 2
  | .start => 3
  | .bin_info .. => 4
  | .stop => 7

def Fields.WellFormed : Fields → Prop
  | .bin_info _ _ _path _ _ _ => ∀ b ∈ _path, b ≠ 0
  | _ => True

theorem Fields.reads {f : Fields} (hf : f.WellFormed) : Reads (Fields.read f.id) f.bytes f := by
  cases f with
  | func_entry _addr _call_site =>
    exact (reads_word rfl _addr).bind (reads_word rfl _call_site).bind_pure
  | func_exit _addr _call_site =>
    exact (reads_word rfl _addr).bind (reads_word rfl _call_site).bind_pure
  | start => exact reads_pure _
  | bin_info _baddr _memsz _path _is_pic _has_build_id _has_debug_link =>
    exact (reads_word rfl _baddr).bind <| (reads_word rfl _memsz).bind <| (reads_string hf).bind <|
      (reads_word rfl _is_pic).bind <| (reads_word rfl _has_build_id).bind
        (reads_word rfl _has_debug_link).bind_pure
  | stop => exact reads_pure _

structure Event.WellFormed (e : Event) : Prop where
  header : e.header.WellFormed
  context : e.context._procname.length = 17
  id : e.header.id = e.fields.id
  fields : e.fields.WellFormed

theorem Event.reads {e : Event} (h : e.WellFormed) : Reads Event.read e.bytes e := by
  have hfields := Fields.reads h.fields
  rw [← h.id] at hfields
  exact (EventHeader.reads h.header).bind <| (EventContext.reads h.context).bind hfields.bind_pure

theorem Event.bytes_ne_nil (e : Event) : e.bytes ≠ [] := by
  refine List.ne_nil_of_length_pos ?_
  simp only [Event.bytes, EventContext.bytes, List.length_append, length_ofWord]
  omega

/-- The events can be read, and the sizes in the context are 8 times the number of bytes. -/
structure Packet.WellFormed (p : Packet) : Prop where
  events : ∀ e ∈ p.events, e.WellFormed
  content_size : p.context.content_size.toNat = 8 * p.bytes.length
  packet_size : p.context.packet_size.toNat = 8 * p.bytes.length

theorem Packet.length_bytes (p : Packet) :
    p.bytes.length = 60 + (p.events.flatMap Event.bytes).length := by
  simp only [Packet.bytes, PacketHeader.bytes, PacketContext.bytes, List.length_append,
    length_ofWord]
  omega

theorem Packet.reads {p : Packet} (h : p.WellFormed) : Reads Packet.read p.bytes p := by
  have hevents := reads_within (fun e he => Event.reads (h.events e he)) fun e _ => e.bytes_ne_nil
  have hcontent : p.context.content_size.toNat / 8 - 60 =
      (p.events.flatMap Event.bytes).length := by
    rw [h.content_size, p.length_bytes]
    omega
  have hpadding : p.context.packet_size.toNat / 8 - p.context.content_size.toNat / 8 = 0 := by
    rw [h.content_size, h.packet_size, Nat.sub_self]
  rw [← hcontent] at hevents
  refine (PacketHeader.reads p.header).bind <| (PacketContext.reads p.context).bind ?_
  have hbind := hevents.bind (f := fun events => do
    let _ ← next (p.context.packet_size.toNat / 8 - p.context.content_size.toNat / 8)
    pure (⟨p.header, p.context, events⟩ : Packet)) (b := p) (by
      rw [hpadding]
      exact (reads_next []).bind_pure)
  rwa [List.append_nil] at hbind

theorem readFile_flatMap {packets : List Packet} (h : ∀ p ∈ packets, p.WellFormed) :
    readFile (packets.flatMap Packet.bytes) = some (packets.map fun p => (p.bytes, p)) := by
  have hflatMap : packets.flatMap Packet.bytes = (packets.map fun p => (p.bytes, p)).flatMap
      Prod.fst :=
    (List.flatMap_map (fun p : Packet => (p.bytes, p)) Prod.fst packets).symm
  have hne : ∀ q ∈ packets.map fun p => (p.bytes, p), q.1 ≠ [] :=
      List.forall_mem_map.mpr fun p _ => by
    refine List.ne_nil_of_length_pos ?_
    rw [p.length_bytes]
    omega
  rw [readFile, hflatMap]
  exact toEnd_flatMap (List.forall_mem_map.mpr fun p hp => (Packet.reads (h p hp)).consumed) hne
    (length_le_flatMap hne)

end CTF

end TraceDecoder
