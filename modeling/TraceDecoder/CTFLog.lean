import TraceDecoder.CTFStreams

/-!
# The packets of a CTF stream

The converter as a log: the events of a core wait, and a flush puts them into a packet, with the
number that the counter of all cores stands at. The files are the packets of the log, behind one
state dump each.
-/

namespace TraceDecoder

open ByteReader

namespace CTFConverter

inductive Call
  | add (op : Op)
  | flush (core : ℕ)

variable (t : CTFSettings)

def call (s : CTFConverter) : Call → CTFConverter
  | .add op => s.step t op
  | .flush core => (s.flushEvents t core).2

def calls (s : CTFConverter) (cs : List Call) : CTFConverter := cs.foldl (call t) s

namespace Op

def id : Op → BitVec 16
  | addCall .. => event_funcEntry
  | addRet .. => event_funcExit

def eventTS : Op → TIMESTAMP
  | addCall _ _ _ eventTS => eventTS
  | addRet _ _ _ eventTS => eventTS

def event (core : ℕ) (first : Bool) (op : Op) : CTF.Event where
  header := if first then .extended (op.id.setWidth 32) op.eventTS
    else .compact op.id (op.eventTS.setWidth 32)
  context := t.context core
  fields := op.fields

end Op

end CTFConverter

open CTFConverter

/-! ### The log -/

/-- The packets of a core with their numbers, and what waits for the next. -/
structure CTFStream where
  written : List (ℕ × List Op)
  waiting : List Op

structure CTFLog where
  count : ℕ
  streams : ℕ → CTFStream

namespace CTFLog

def init : CTFLog := ⟨0, fun _ => ⟨[], []⟩⟩

variable (l : CTFLog)

def flush (core : ℕ) : CTFLog :=
  if (l.streams core).waiting = [] then l
  else
    { count := l.count + 1
      streams := Function.update l.streams core ⟨(l.streams core).written ++
        [(l.count, (l.streams core).waiting)], []⟩ }

def put (op : Op) : CTFLog :=
  { l with streams := Function.update l.streams op.core { l.streams op.core with waiting :=
    (l.streams op.core).waiting ++ [op] } }

def add (op : Op) : CTFLog :=
  if (l.streams op.core).waiting.length = DQR_MAXCORES then (l.flush op.core).put op else l.put op

def call : Call → CTFLog
  | .add op => l.add op
  | .flush core => l.flush core

def ofCalls (cs : List Call) : CTFLog := cs.foldl call init

end CTFLog

/-! ### The packets of a file -/

namespace CTFStream

variable (t : CTFSettings) (core : ℕ)

def begins (ops : List Op) : TIMESTAMP := (ops.head?.map Op.eventTS).getD 0

/-- What `flushEvents` takes for the time of the last event: its low half, with the upper half of
the first. -/
def ends (ops : List Op) : TIMESTAMP :=
  if 1 < ops.length then
    (begins ops >>> 32) <<< 32 ||| (((ops.getLast?.map Op.eventTS).getD 0).setWidth 32).setWidth 64
  else begins ops

def events : List Op → List CTF.Event
  | [] => []
  | op :: ops => op.event t core true :: ops.map (Op.event t core false)

def eventPacket (p : ℕ × List Op) : CTF.Packet :=
  CTFCore.packet core p.1 (begins p.2) (ends p.2) ((events t core p.2).flatMap
    CTF.Event.bytes).length (events t core p.2)

def dumpPacket (p : ℕ × List Op) : CTF.Packet :=
  CTFCore.packet core p.1 (begins p.2) (begins p.2) (CTFCore.computeBinInfoSize t)
    (CTFCore.stateDump t core (begins p.2))

def packets : List (ℕ × List Op) → List CTF.Packet
  | [] => []
  | p :: ps => dumpPacket t core p :: (p :: ps).map (eventPacket t core)

def before (p : ℕ × List Op) : List (ℕ × List Op) → List CTF.Packet
  | [] => [dumpPacket t core p]
  | ps => packets t core ps

theorem packets_append (ps : List (ℕ × List Op)) (p : ℕ × List Op) :
    packets t core (ps ++ [p]) = before t core p ps ++ [eventPacket t core p] := by
  cases ps with
  | nil => rfl
  | cons q ps =>
    change dumpPacket t core q :: ((q :: ps) ++ [p]).map (eventPacket t core) = _
    rw [List.map_append, List.map_singleton]
    rfl

theorem events_eq (ops : List Op) : events t core ops = ops.mapIdx fun i op => op.event t core
    (i = 0) := by
  cases ops with
  | nil => rfl
  | cons op ops =>
    rw [events, List.mapIdx_cons]
    refine congrArg (_ :: ·) ?_
    apply List.ext_getElem
    · rw [List.length_map, List.length_mapIdx]
    · intro i hi hi'
      rw [List.getElem_map, List.getElem_mapIdx]
      rfl

end CTFStream

/-! ### What the buffer and the file hold -/

namespace CTFConverter

/-- Event `i` of a packet in the buffer. -/
structure Stored (i : ℕ) (op : Op) (e : CTFEvent) : Prop where
  event_id : e.event_id = if i = 0 then event_extended else op.id
  word : e.word = if i = 0 then op.id.setWidth 32 else op.eventTS.setWidth 32
  timestamp : i = 0 → e.timestamp = op.eventTS
  fields : e.fields = op.fields
  isCall : e.IsCall

theorem Stored.event {t : CTFSettings} {core i : ℕ} {op : Op} {e : CTFEvent} (h : Stored i op e) :
    e.event t core = op.event t core (i = 0) := by
  unfold CTFEvent.event Op.event
  rw [h.event_id, h.word, h.fields]
  by_cases hi : i = 0
  · rw [if_pos hi, if_pos hi, if_pos rfl, if_pos (decide_eq_true hi), h.timestamp hi]
  · have hid : op.id ≠ event_extended := by
      cases op with
      | addCall =>
        change event_funcEntry ≠ event_extended
        decide
      | addRet =>
        change event_funcExit ≠ event_extended
        decide
    rw [if_neg hi, if_neg hi, if_neg hid, if_neg (by simpa using hi)]

structure Refines (t : CTFSettings) (core : ℕ) (c : CTFCore) (st : CTFStream) : Prop where
  eventIndex : c.eventIndex = st.waiting.length
  le : st.waiting.length ≤ DQR_MAXCORES
  allocated : st.waiting ≠ [] → c.allocated = true
  stored : ∀ i op, st.waiting[i]? = some op → Stored i op (c.eventBuffer i)
  headerFlag : c.headerFlag = !st.written.isEmpty
  file : c.file = (CTFStream.packets t core st.written).flatMap CTF.Packet.bytes
  written : ∀ p ∈ st.written, p.2 ≠ [] ∧ p.2.length ≤ DQR_MAXCORES

variable {t : CTFSettings} {core : ℕ} {c : CTFCore} {st : CTFStream} {s : CTFConverter}

namespace Refines

theorem getElem_buffered (h : Refines t core c st) {i : ℕ} (hi : i < c.buffered.length) :
    ∃ hi' : i < st.waiting.length, Stored i (st.waiting[i]) (c.buffered[i]) := by
  have hlt : i < st.waiting.length := by
    rwa [CTFCore.buffered, List.length_map, List.length_range, h.eventIndex] at hi
  refine ⟨hlt, ?_⟩
  simp only [CTFCore.buffered, List.getElem_map, List.getElem_range]
  exact h.stored i _ (List.getElem?_eq_getElem hlt)

theorem isCall (h : Refines t core c st) : ∀ e ∈ c.buffered, e.IsCall := by
  intro e he
  obtain ⟨i, hi, rfl⟩ := List.getElem_of_mem he
  exact (h.getElem_buffered hi).2.isCall

theorem buffered (h : Refines t core c st) :
    c.buffered.map (CTFEvent.event t core) = CTFStream.events t core st.waiting := by
  rw [CTFStream.events_eq]
  apply List.ext_getElem
  · rw [List.length_map, List.length_mapIdx, CTFCore.buffered, List.length_map, List.length_range,
      h.eventIndex]
  · intro i hi hi'
    rw [List.length_map] at hi
    obtain ⟨hlt, hstored⟩ := h.getElem_buffered hi
    rw [List.getElem_map, List.getElem_mapIdx, hstored.event]

theorem timestamp (h : Refines t core c st) (hne : st.waiting ≠ []) : (c.eventBuffer 0).timestamp =
    CTFStream.begins st.waiting := by
  obtain ⟨op, ops, hops⟩ := List.exists_cons_of_ne_nil hne
  rw [(h.stored 0 op (by rw [hops]; rfl)).timestamp rfl, hops]
  rfl

theorem ts_end (h : Refines t core c st) (hne : st.waiting ≠ []) :
    (if 1 < c.eventIndex then
      (CTFStream.begins st.waiting >>> 32) <<< 32 |||
      (c.eventBuffer (c.eventIndex - 1)).word.setWidth 64
    else CTFStream.begins st.waiting) = CTFStream.ends st.waiting := by
  rw [CTFStream.ends, h.eventIndex]
  split_ifs with hlt
  · have hlast : st.waiting[st.waiting.length - 1]? = st.waiting.getLast? :=
      List.getLast?_eq_getElem?.symm
    obtain ⟨op, hop⟩ := Option.isSome_iff_exists.mp (List.getLast?_isSome.mpr hne)
    rw [(h.stored _ op (hlast.trans hop)).word, if_neg (by omega), hop]
    rfl
  · rfl

/-- The state dump is written in front of the first packet. -/
theorem header (h : Refines t core c st) (n : ℕ) :
    (if !c.headerFlag then { c.writeBinInfo t core n
      (CTFStream.begins st.waiting) with headerFlag := true } else c) =
      { c with file := (CTFStream.before t core (n, st.waiting) st.written).flatMap CTF.Packet.bytes, headerFlag := true } := by
  have hfile := h.file
  have hflag := h.headerFlag
  cases hwritten : st.written with
  | nil =>
    rw [hwritten, CTFStream.packets, List.flatMap_nil] at hfile
    rw [hwritten, List.isEmpty_nil] at hflag
    rw [hflag, CTFStream.before, List.flatMap_singleton, CTFStream.dumpPacket,
      CTFCore.writeBinInfo_eq, CTFCore.write, hfile, List.nil_append]
    exact if_pos rfl
  | cons p ps =>
    rw [hwritten] at hfile
    rw [hwritten, List.isEmpty_cons] at hflag
    have hbefore : CTFStream.before t core (n, st.waiting) (p :: ps) = CTFStream.packets t core
        (p :: ps) := by
      rw [CTFStream.before]
      exact List.cons_ne_nil p ps
    rw [hbefore, ← hfile, if_neg (by rw [hflag]; exact Bool.false_ne_true)]
    have htrue : c.headerFlag = true := hflag
    cases c
    cases htrue
    rfl

theorem events (h : Refines t core c st) {d : CTFCore} (hd : d.buffered = c.buffered) (n : ℕ)
    (ts_begin ts_end : TIMESTAMP) :
    d.computeEventSizes = some
      ((CTFStream.events t core st.waiting).flatMap CTF.Event.bytes).length ∧
      ∀ size, (d.writeStreamHeaders core n ts_begin ts_end size).writeEvents t core =
        d.write (CTFCore.packet core n ts_begin ts_end size
            (CTFStream.events t core st.waiting)).bytes := by
  have hcall : ∀ e ∈ d.buffered, e.IsCall := hd ▸ h.isCall
  have hevents : d.buffered.map (CTFEvent.event t core) = CTFStream.events t core st.waiting :=
    hd ▸ h.buffered
  constructor
  · rw [← hevents]
    exact CTFCore.computeEventSizes_eq t core hcall
  · intro size
    have hbuffered : (d.writeStreamHeaders core n ts_begin ts_end size).buffered = d.buffered := by
      unfold CTFCore.writeStreamHeaders CTFCore.writeTracePacketHeader
        CTFCore.writeStreamPacketContext CTFCore.write
      rfl
    rw [CTFCore.writeEvents_eq t core (hbuffered ▸ hcall), hbuffered, hevents,
      CTFCore.writeStreamHeaders_write]

theorem flushEvents (h : Refines t core (s.cores core) st) (hne : st.waiting ≠ []) : ∃ c,
    s.flushEvents t core = (.ok, { s.update core c with packetSeqNum := s.packetSeqNum + 1 }) ∧
      c.allocated = true ∧
      Refines t core c ⟨st.written ++ [(s.packetSeqNum, st.waiting)], []⟩ := by
  have hzero : (s.cores core).eventIndex ≠ 0 := by
    rw [h.eventIndex]
    exact mt List.length_eq_zero_iff.mp hne
  have hallocated := h.allocated hne
  have hheader := h.header s.packetSeqNum
  have hend := h.ts_end hne
  -- the core behind the state dump
  obtain ⟨d, hd⟩ : ∃ d : CTFCore, d = { s.cores core with
      file := (CTFStream.before t core (s.packetSeqNum, st.waiting) st.written).flatMap
        CTF.Packet.bytes, headerFlag := true } := ⟨_, rfl⟩
  rw [← hd] at hheader
  have hindex : d.eventIndex = (s.cores core).eventIndex := by rw [hd]
  have hbuffer : d.eventBuffer = (s.cores core).eventBuffer := by rw [hd]
  have hfile : d.file = (CTFStream.before t core (s.packetSeqNum, st.waiting) st.written).flatMap
    CTF.Packet.bytes := by rw [hd]
  have hflag : d.headerFlag = true := by rw [hd]
  have hkept : d.allocated = true := by rw [hd, hallocated]
  have hbuffered : d.buffered = (s.cores core).buffered := by
    rw [CTFCore.buffered, CTFCore.buffered, hindex, hbuffer]
  obtain ⟨hsizes, hwrite⟩ :=
    h.events hbuffered s.packetSeqNum (CTFStream.begins st.waiting) (CTFStream.ends st.waiting)
  refine ⟨{ d.write (CTFStream.eventPacket t core (s.packetSeqNum,
    st.waiting)).bytes with eventIndex := 0 }, ?_, hkept, ?_⟩
  · unfold CTFConverter.flushEvents
    dsimp only
    rw [if_neg hzero, hallocated, Bool.not_true, if_neg Bool.false_ne_true, h.timestamp hne,
      hheader, hsizes]
    dsimp only
    rw [hindex, hbuffer, hend, hwrite]
    rfl
  · constructor
    · rfl
    · exact Nat.zero_le _
    · exact fun hnil => absurd rfl hnil
    · intro i op hop
      cases hop
    · have hsome : (st.written ++ [(s.packetSeqNum, st.waiting)]).isEmpty = false := by
        rw [List.isEmpty_eq_false_iff]
        exact List.append_ne_nil_of_right_ne_nil _ (List.cons_ne_nil _ _)
      dsimp only
      rw [hsome]
      exact hflag
    · rw [CTFStream.packets_append, List.flatMap_append, List.flatMap_singleton, ← hfile]
      rfl
    · intro p hp
      rcases List.mem_append.mp hp with hp | hp
      · exact h.written p hp
      · rw [List.mem_singleton.mp hp]
        exact ⟨hne, h.le⟩

theorem put (h : Refines t core c st) (hroom : st.waiting.length < DQR_MAXCORES)
    (hallocated : c.allocated = true) {op : Op}
    {e : CTFEvent} (he : Stored st.waiting.length op e) :
    Refines t core { c with eventBuffer := fun i => if i = c.eventIndex then e else c.eventBuffer i, eventIndex := c.eventIndex + 1 }
      { st with waiting := st.waiting ++ [op] } where
  eventIndex := by
    rw [List.length_append, List.length_singleton, ← h.eventIndex]
  le := by
    rw [List.length_append, List.length_singleton]
    exact hroom
  allocated := fun _ => hallocated
  stored := by
    intro i op' hop
    dsimp only
    rw [h.eventIndex]
    rcases Nat.lt_trichotomy i st.waiting.length with hlt | heq | hgt
    · rw [List.getElem?_append_left hlt] at hop
      rw [if_neg (Nat.ne_of_lt hlt)]
      exact h.stored i op' hop
    · rw [heq, List.getElem?_concat_length] at hop
      rw [if_pos heq, heq, ← Option.some.inj hop]
      exact he
    · rw [List.getElem?_eq_none (by rw [List.length_append, List.length_singleton]; omega)] at hop
      cases hop
  headerFlag := h.headerFlag
  file := h.file
  written := h.written

end Refines

theorem stored_newEvent (c : CTFCore) {id : BitVec 16} {srcAddr dstAddr : ADDRESS} {op : Op}
    (hid : op.id = id) (hfields : op.fields = callFields id srcAddr dstAddr) :
    Stored c.eventIndex op (c.newEvent id srcAddr dstAddr op.eventTS) where
  event_id := by rw [hid]; rfl
  word := by rw [hid]; rfl
  timestamp hzero := if_pos hzero
  fields := by
    have hcall : id = event_funcEntry ∨ id = event_funcExit := by
      rw [← hid]
      cases op with
      | addCall => exact .inl rfl
      | addRet => exact .inr rfl
    rw [hfields, (newEvent_spec c hcall srcAddr dstAddr op.eventTS).2]
  isCall := by
    have hcall : id = event_funcEntry ∨ id = event_funcExit := by
      rw [← hid]
      cases op with
      | addCall => exact .inl rfl
      | addRet => exact .inr rfl
    exact (newEvent_spec c hcall srcAddr dstAddr op.eventTS).1

structure RefinesLog (t : CTFSettings) (s : CTFConverter) (l : CTFLog) : Prop where
  count : s.packetSeqNum = l.count
  streams : ∀ core, Refines t core (s.cores core) (l.streams core)

variable {l : CTFLog}

theorem refinesLog_init (memory : ℕ → ℕ → CTFEvent) : RefinesLog t (init memory) CTFLog.init where
  count := rfl
  streams _ := {
    eventIndex := rfl
    le := Nat.zero_le _
    allocated := fun hne => absurd rfl hne
    stored := nofun
    headerFlag := rfl
    file := rfl
    written := List.forall_mem_nil _ }

theorem RefinesLog.update (h : RefinesLog t s l) (core : ℕ) {c : CTFCore} {st : CTFStream}
    (hcore : Refines t core c st) (i : ℕ) :
    Refines t i ((s.update core c).cores i) (Function.update l.streams core st i) := by
  by_cases hi : i = core
  · rw [hi, update_self, Function.update_self]
    exact hcore
  · rw [update_of_ne hi, Function.update_of_ne hi]
    exact h.streams i

theorem RefinesLog.flushEvents (h : RefinesLog t s l) (core : ℕ) :
    ∃ s', s.flushEvents t core = (.ok, s') ∧
    RefinesLog t s' (l.flush core) ∧ ((s.cores core).allocated = true → (s'.cores core).allocated =
        true) := by
  have hcore := h.streams core
  by_cases hnil : (l.streams core).waiting = []
  · have hzero : (s.cores core).eventIndex = 0 := by
      rw [hcore.eventIndex, hnil]
      rfl
    refine ⟨s, ?_, ?_, id⟩
    · rw [CTFConverter.flushEvents]
      exact if_pos hzero
    · rwa [CTFLog.flush, if_pos hnil]
  · obtain ⟨c, hflush, hallocated, hrefines⟩ := hcore.flushEvents hnil
    refine ⟨_, hflush, ?_, fun _ => ?_⟩
    · rw [CTFLog.flush, if_neg hnil, ← h.count]
      exact ⟨rfl, h.update core hrefines⟩
    · rw [← hallocated]
      exact congrArg CTFCore.allocated (update_self (s := s) core c)

theorem RefinesLog.putEvent (h : RefinesLog t s l) {op : Op}
    (hroom : (l.streams op.core).waiting.length < DQR_MAXCORES)
    (hallocated : (s.cores op.core).allocated = true) {id : BitVec 16} {srcAddr dstAddr : ADDRESS}
    (hid : op.id = id) (hfields : op.fields = callFields id srcAddr dstAddr) :
    RefinesLog t (s.putEvent id op.core srcAddr dstAddr op.eventTS) (l.put op) where
  count := h.count
  streams := by
    have hcore := h.streams op.core
    have hstored := stored_newEvent (s.cores op.core) hid hfields
    rw [hcore.eventIndex] at hstored
    exact h.update op.core (hcore.put hroom hallocated hstored)

theorem RefinesLog.addEvent (h : RefinesLog t s l) (op : Op) {id : BitVec 16}
    {srcAddr dstAddr : ADDRESS} (hid : op.id = id)
    (hfields : op.fields = callFields id srcAddr dstAddr) :
    RefinesLog t (s.addEvent t id op.core srcAddr dstAddr op.eventTS).2 (l.add op) := by
  have hcore := h.streams op.core
  have hsame : Function.update l.streams op.core (l.streams op.core) = l.streams :=
    Function.update_eq_self _ _
  have hallocate : RefinesLog t (s.update op.core { s.cores op.core with allocated := true })
      l := by
    have hrefines : Refines t op.core { s.cores op.core with allocated := true }
        (l.streams op.core) :=
      ⟨hcore.eventIndex, hcore.le, fun _ => rfl, hcore.stored, hcore.headerFlag, hcore.file,
        hcore.written⟩
    refine ⟨h.count, fun i => ?_⟩
    have hi := h.update op.core hrefines i
    rwa [hsame] at hi
  have hallocated : ((s.update op.core { s.cores op.core with allocated := true }).cores
      op.core).allocated = true := by
    rw [update_self]
  unfold CTFConverter.addEvent
  dsimp only
  generalize s.update op.core { s.cores op.core with allocated := true } = s₁ at *
  rw [(hallocate.streams op.core).eventIndex, CTFLog.add]
  split_ifs with hfull
  · obtain ⟨s', hflush, hrefines, hkept⟩ := hallocate.flushEvents op.core
    rw [hflush]
    have hempty : ((l.flush op.core).streams op.core).waiting = [] := by
      have hne : (l.streams op.core).waiting ≠ [] := fun hnil => by
        rw [hnil] at hfull
        exact absurd hfull (by decide)
      rw [CTFLog.flush, if_neg hne]
      dsimp only
      rw [Function.update_self]
    exact hrefines.putEvent (by rw [hempty]; decide) (hkept hallocated) hid hfields
  · exact hallocate.putEvent (Nat.lt_of_le_of_ne (hallocate.streams op.core).le hfull) hallocated
      hid hfields

theorem RefinesLog.call (h : RefinesLog t s l) (c : Call) :
    RefinesLog t (s.call t c) (l.call c) := by
  cases c with
  | add op =>
    cases op with
    | addCall core srcAddr dstAddr eventTS =>
      exact h.addEvent (.addCall core srcAddr dstAddr eventTS) rfl rfl
    | addRet core srcAddr dstAddr eventTS =>
      exact h.addEvent (.addRet core srcAddr dstAddr eventTS) rfl rfl
  | flush core =>
    obtain ⟨s', hflush, hrefines, -⟩ := h.flushEvents core
    change RefinesLog t (s.flushEvents t core).2 _
    rw [hflush]
    exact hrefines

/-- **The converter refines the log**, in every state. -/
theorem calls_refines (memory : ℕ → ℕ → CTFEvent) (cs : List Call) :
    RefinesLog t ((init memory).calls t cs) (CTFLog.ofCalls cs) := by
  have hrun : ∀ {s l}, RefinesLog t s l → RefinesLog t (s.calls t cs) (cs.foldl CTFLog.call l) := by
    induction cs with
    | nil => exact id
    | cons c cs ih => exact fun h => ih (h.call c)
  exact hrun (refinesLog_init memory)

/-! ### Reading a file -/

theorem Op.fields_id (op : Op) : op.fields.id = op.id.toNat := by
  cases op with
  | addCall => rfl
  | addRet => rfl

theorem Op.event_wellFormed (t : CTFSettings) (core : ℕ) (first : Bool) (op : Op) :
    (op.event t core first).WellFormed := by
  have hid : op.id ≠ 65535 := by
    cases op with
    | addCall =>
      change event_funcEntry ≠ 65535
      decide
    | addRet =>
      change event_funcExit ≠ 65535
      decide
  constructor
  · unfold Op.event
    cases first
    · exact hid
    · exact trivial
  · exact CTFCore.length_procname t
  · change _ = op.fields.id
    rw [Op.fields_id]
    unfold Op.event
    cases first
    · rfl
    · exact BitVec.toNat_setWidth_of_le (by decide)
  · unfold Op.event Op.fields
    cases op <;> exact trivial

theorem Op.length_event_le (t : CTFSettings) (core : ℕ) (first : Bool) (op : Op) :
    (op.event t core first).bytes.length ≤ 55 := by
  have hcontext : (t.context core).bytes.length = 25 := by
    change (ofWord 1#32 ++ (ofWord (BitVec.ofNat 32 core) ++ t.procname)).length = 25
    rw [List.length_append, List.length_append, length_ofWord, length_ofWord,
      CTFCore.length_procname t]
  have hfields : op.fields.bytes.length = 16 := by
    unfold Op.fields
    cases op <;> rfl
  have hheader : (op.event t core first).header.bytes.length ≤ 14 := by
    unfold Op.event
    cases first
    · change (ofWord op.id ++ ofWord (op.eventTS.setWidth 32)).length ≤ 14
      rw [List.length_append, length_ofWord, length_ofWord]
      decide
    · change (ofWord 65535#16 ++ (ofWord (op.id.setWidth 32) ++ ofWord op.eventTS)).length ≤ 14
      rw [List.length_append, List.length_append, length_ofWord, length_ofWord, length_ofWord]
  change ((op.event t core first).header.bytes ++
    ((t.context core).bytes ++ op.fields.bytes)).length ≤ 55
  rw [List.length_append, List.length_append, hcontext, hfields]
  omega

theorem events_wellFormed (t : CTFSettings) (core : ℕ) (ops : List Op) :
    ∀ e ∈ CTFStream.events t core ops, e.WellFormed := by
  intro e he
  rw [CTFStream.events_eq] at he
  obtain ⟨i, hi, rfl⟩ := List.mem_mapIdx.mp he
  exact Op.event_wellFormed t core _ _

theorem length_events_le (t : CTFSettings) (core : ℕ) (ops : List Op) :
    ((CTFStream.events t core ops).flatMap CTF.Event.bytes).length ≤ 55 * ops.length := by
  have hrest (ops : List Op) : ((ops.map (Op.event t core false)).flatMap CTF.Event.bytes).length ≤
      55 * ops.length := by
    induction ops with
    | nil => exact Nat.le_refl _
    | cons op ops ih =>
      have hle := Op.length_event_le t core false op
      rw [List.map_cons, List.flatMap_cons, List.length_append, List.length_cons]
      omega
  cases ops with
  | nil => exact Nat.le_refl _
  | cons op ops =>
    have hle := Op.length_event_le t core true op
    have hmore := hrest ops
    rw [CTFStream.events, List.flatMap_cons, List.length_append, List.length_cons]
    omega

theorem packets_wellFormed (t : CTFSettings) (core : ℕ) {ps : List (ℕ × List Op)}
    (hps : ∀ p ∈ ps, p.2.length ≤ DQR_MAXCORES) :
    ∀ p ∈ CTFStream.packets t core ps, p.WellFormed := by
  have hevents (p : ℕ × List Op) (hp : p.2.length ≤ DQR_MAXCORES) :
      (CTFStream.eventPacket t core p).WellFormed := by
    have hle := length_events_le t core p.2
    have hmax : DQR_MAXCORES = 16 := rfl
    exact CTFCore.packet_wellFormed core p.1 _ _ (events_wellFormed t core p.2) rfl (by omega)
  cases ps with
  | nil => exact List.forall_mem_nil _
  | cons p ps =>
    refine List.forall_mem_cons.mpr ⟨?_, List.forall_mem_map.mpr fun q hq => hevents q (hps q hq)⟩
    exact CTFCore.packet_wellFormed core p.1 _ _ (CTFCore.stateDump_wellFormed t core _)
      (CTFCore.computeBinInfoSize_eq t core _) (CTFCore.computeBinInfoSize_lt t)

/-- The file is read as the packets that have been written. -/
theorem Refines.readFile (h : Refines t core c st) :
    CTF.readFile c.file = some ((CTFStream.packets t core st.written).map fun p =>
        (p.bytes, p)) := by
  rw [h.file]
  exact CTF.readFile_flatMap (packets_wellFormed t core fun p hp => (h.written p hp).2)

/-! ### What is in which packet -/

/-- The events of the packets of a core, and those that wait for the next, from the calls alone. -/
def pack (core : ℕ) (b : List (List Op) × List Op) : Call → List (List Op) × List Op
  | .add op =>
    if op.core ≠ core then b
    else if b.2.length = DQR_MAXCORES then (b.1 ++ [b.2], [op])
    else (b.1, b.2 ++ [op])
  | .flush i => if i ≠ core ∨ b.2 = [] then b else (b.1 ++ [b.2], [])

def packed (core : ℕ) (cs : List Call) : List (List Op) × List Op := cs.foldl (pack core) ([], [])

def opsOf (core : ℕ) : List Call → List Op
  | [] => []
  | .add op :: cs => if op.core = core then op :: opsOf core cs else opsOf core cs
  | .flush _ :: cs => opsOf core cs

def view (l : CTFLog) (core : ℕ) : List (List Op) × List Op :=
  ((l.streams core).written.map Prod.snd, (l.streams core).waiting)

theorem view_flush (l : CTFLog) (core i : ℕ) :
    view (l.flush i) core = if i ≠ core ∨ (l.streams core).waiting = [] then view l core
      else ((view l core).1 ++ [(view l core).2], []) := by
  unfold view CTFLog.flush
  by_cases hi : i = core
  · subst hi
    by_cases hnil : (l.streams i).waiting = []
    · rw [if_pos hnil, if_pos (.inr hnil)]
    · rw [if_neg hnil, if_neg (by simp [hnil])]
      dsimp only
      rw [Function.update_self, List.map_append]
      rfl
  · have hother : i ≠ core ∨ (l.streams core).waiting = [] := .inl hi
    rw [if_pos hother]
    by_cases hnil : (l.streams i).waiting = []
    · rw [if_pos hnil]
    · rw [if_neg hnil]
      dsimp only
      rw [Function.update_of_ne (Ne.symm hi)]

theorem view_put (l : CTFLog) (core : ℕ) (op : Op) :
    view (l.put op) core = if op.core ≠ core then view l core
      else ((view l core).1, (view l core).2 ++ [op]) := by
  unfold view CTFLog.put
  dsimp only
  by_cases hcore : op.core = core
  · rw [if_neg (not_not.mpr hcore), ← hcore, Function.update_self]
  · rw [if_pos hcore, Function.update_of_ne (Ne.symm hcore)]

theorem view_call (l : CTFLog) (core : ℕ) (c : Call) :
    view (l.call c) core = pack core (view l core) c := by
  cases c with
  | flush i => exact view_flush l core i
  | add op =>
    change view (l.add op) core = _
    unfold CTFLog.add pack
    dsimp only
    by_cases hcore : op.core = core
    · subst hcore
      rw [if_neg (not_not.mpr rfl)]
      by_cases hfull : (l.streams op.core).waiting.length = DQR_MAXCORES
      · have hne : (l.streams op.core).waiting ≠ [] := by
          intro hnil
          rw [hnil] at hfull
          exact absurd hfull (by decide)
        rw [if_pos hfull, view_put, if_neg (not_not.mpr rfl), view_flush, if_neg (by simp [hne])]
        exact (if_pos hfull).symm
      · rw [if_neg hfull, view_put, if_neg (not_not.mpr rfl)]
        exact (if_neg hfull).symm
    · rw [if_pos hcore]
      split_ifs
      · rw [view_put, if_pos hcore, view_flush, if_pos (.inl hcore)]
      · rw [view_put, if_pos hcore]

theorem view_ofCalls (core : ℕ) (cs : List Call) :
    view (CTFLog.ofCalls cs) core = packed core cs := by
  have hrun : ∀ (l : CTFLog), view (cs.foldl CTFLog.call l) core = cs.foldl (pack core)
      (view l core) := by
    induction cs with
    | nil => exact fun _ => rfl
    | cons c cs ih =>
      intro l
      rw [List.foldl_cons, List.foldl_cons, ih, view_call]
  exact hrun CTFLog.init

end CTFConverter

/-! ### Calls for the cores there are -/

namespace CTFConverter

def Call.core : Call → ℕ
  | .add op => op.core
  | .flush core => core

/-- The calls are for cores below `numCores`, and the counter of the packets, an
`int`, has not run over. -/
structure Inside (t : CTFSettings) (memory : ℕ → ℕ → CTFEvent) (cs : List Call) : Prop where
  cores : ∀ c ∈ cs, c.core < t.numCores
  count : ((init memory).calls t cs).packetSeqNum < 2 ^ 31

theorem call_of_ne {t : CTFSettings} {s : CTFConverter} {c : Call} {i : ℕ} (h : c.core ≠ i) :
    (s.call t c).cores i = s.cores i := by
  cases c with
  | flush core => exact flushEvents_of_ne (Ne.symm h)
  | add op => exact run_of_ne (List.forall_mem_singleton.mpr h : ∀ o ∈ [op], o.core ≠ _)

theorem Inside.outside {t : CTFSettings} {memory : ℕ → ℕ → CTFEvent} {cs : List Call}
    (h : Inside t memory cs) {i : ℕ} (hi : t.numCores ≤ i) :
    ((init memory).calls t cs).cores i = (init memory).cores i := by
  have hrun : ∀ (cs : List Call) (s : CTFConverter), (∀ c ∈ cs, c.core < t.numCores) →
      (s.calls t cs).cores i = s.cores i := by
    intro cs
    induction cs with
    | nil => exact fun _ _ => rfl
    | cons c cs ih =>
      intro s hcores
      obtain ⟨hc, hcs⟩ := List.forall_mem_cons.mp hcores
      exact (ih (s.call t c) hcs).trans (call_of_ne (Nat.ne_of_lt (Nat.lt_of_lt_of_le hc hi)))
  exact hrun cs _ h.cores

/-- Calls on two cores, each of which has a packet in the file, and the first another one. -/
def turnsOfTwo : List Call :=
  [.add (.addCall 0 0x10 0x20 5), .add (.addCall 1 0x14 0x30 6), .flush 0, .flush 1,
    .add (.addRet 0 0x24 0x14 9), .add (.addCall 0 0x28 0x50 12), .flush 0]

theorem inside_turnsOfTwo : Inside twoCores zeros turnsOfTwo where
  cores := by decide
  count := by
    have hcount : ((init zeros).calls twoCores turnsOfTwo).packetSeqNum =
        (CTFLog.ofCalls turnsOfTwo).count := (calls_refines zeros turnsOfTwo).count
    rw [hcount]
    decide

end CTFConverter

end TraceDecoder
