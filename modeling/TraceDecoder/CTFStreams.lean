import TraceDecoder.CTFCoreStreams

/-!
# The files hold the events

What the converter writes for a core are packets of the declared layout: a state dump before the
first events, then the events in the order in which they were added.
-/

namespace TraceDecoder

open ByteReader

namespace CTFConverter

open CTFCore

variable {t : CTFSettings} {s : CTFConverter} {core : ℕ}

theorem update_self (core : ℕ) (c : CTFCore) : (s.update core c).cores core = c := if_pos rfl

theorem update_of_ne {i : ℕ} (hi : i ≠ core) (c : CTFCore) : (s.update core c).cores i =
    s.cores i := if_neg hi

theorem flushEvents_of_ne {i : ℕ} (hi : i ≠ core) : (s.flushEvents t core).2.cores i =
    s.cores i := by
  unfold flushEvents
  dsimp only
  split_ifs
  · rfl
  · rfl
  all_goals
    split
    · exact update_of_ne hi _
    · exact update_of_ne hi _

theorem addEvent_of_ne {i : ℕ} (hi : i ≠ core) (id : BitVec 16) (srcAddr dstAddr : ADDRESS)
    (eventTS : TIMESTAMP) :
    (s.addEvent t id core srcAddr dstAddr eventTS).2.cores i = s.cores i := by
  have hflush :=
    flushEvents_of_ne (s := s.update core { s.cores core with allocated := true }) (t := t) hi
  rw [update_of_ne hi] at hflush
  unfold addEvent
  dsimp only
  split_ifs
  · split
    · rename_i hok
      rw [hok] at hflush
      exact (update_of_ne hi _).trans hflush
    · rename_i hrc
      rw [hrc] at hflush
      exact hflush
  · exact (update_of_ne hi _).trans (update_of_ne hi _)

theorem flushEvents_follows {added : List CTF.Fields} (h : (s.cores core).Follows core added) :
    ∃ s', s.flushEvents t core = (.ok, s') ∧
    (s'.cores core).Follows core added ∧ (s'.cores core).eventIndex = 0 ∧
    (s'.cores core).allocated = (s.cores core).allocated := by
  unfold flushEvents
  dsimp only
  by_cases hzero : (s.cores core).eventIndex = 0
  · rw [if_pos hzero]
    exact ⟨s, rfl, h, hzero, rfl⟩
  · have hpos := Nat.pos_of_ne_zero hzero
    obtain ⟨packets, calls, hpackets, hadded, hstream, hheader⟩ :=
      h.header t core s.packetSeqNum ((s.cores core).eventBuffer 0).timestamp
    rw [if_neg hzero, if_neg (by simp [h.allocated hpos]), hheader]
    dsimp only
    obtain ⟨size, hsize, hfollows⟩ := h.events t core hpos hpackets hadded hstream
    have hsize : computeEventSizes
      { s.cores core with file := packets.flatMap CTF.Packet.bytes, headerFlag := true } =
        some size := hsize
    rw [hsize]
    refine ⟨_, rfl, ?_, ?_, ?_⟩
    · exact (update_self (s := s) core _).symm ▸ (hfollows _ _ _).2
    · exact congrArg CTFCore.eventIndex (update_self (s := s) core _)
    · exact (congrArg CTFCore.allocated (update_self (s := s) core _)).trans (hfollows _ _ _).1

def callFields (id : BitVec 16) (srcAddr dstAddr : ADDRESS) : CTF.Fields :=
  if id = event_funcEntry then .func_entry srcAddr dstAddr else .func_exit srcAddr dstAddr

theorem newEvent_spec (c : CTFCore) {id : BitVec 16}
    (hid : id = event_funcEntry ∨ id = event_funcExit)
    (srcAddr dstAddr : ADDRESS) (eventTS : TIMESTAMP) :
    (c.newEvent id srcAddr dstAddr eventTS).IsCall ∧
      (c.newEvent id srcAddr dstAddr eventTS).fields = callFields id srcAddr dstAddr := by
  have het : (c.newEvent id srcAddr dstAddr eventTS).et = id.setWidth 32 := by
    unfold newEvent CTFEvent.et
    dsimp only
    by_cases hzero : c.eventIndex = 0
    · rw [if_pos hzero, if_pos hzero, if_pos rfl]
    · rw [if_neg hzero, if_neg hzero, if_neg (by rcases hid with rfl | rfl <;> decide)]
  have hpc : (c.newEvent id srcAddr dstAddr eventTS).pc = srcAddr := rfl
  have hpcDst : (c.newEvent id srcAddr dstAddr eventTS).pcDst = dstAddr := rfl
  unfold CTFEvent.IsCall CTFEvent.fields
  rw [het, hpc, hpcDst]
  rcases hid with rfl | rfl
  · exact ⟨Or.inl rfl, rfl⟩
  · exact ⟨Or.inr rfl, rfl⟩

theorem putEvent_follows {added : List CTF.Fields} (h : (s.cores core).Follows core added)
    (hindex : (s.cores core).eventIndex < DQR_MAXCORES)
    (hallocated : (s.cores core).allocated = true) {id : BitVec 16}
    (hid : id = event_funcEntry ∨ id = event_funcExit) (srcAddr dstAddr : ADDRESS)
    (eventTS : TIMESTAMP) :
    ((s.putEvent id core srcAddr dstAddr eventTS).cores core).Follows core
    (added ++ [callFields id srcAddr dstAddr]) := by
  obtain ⟨hcall, hfields⟩ := newEvent_spec (s.cores core) hid srcAddr dstAddr eventTS
  unfold putEvent
  dsimp only
  rw [update_self, ← hfields]
  exact h.put core hindex hallocated hcall

theorem addEvent_follows {added : List CTF.Fields} (h : (s.cores core).Follows core added)
    {id : BitVec 16}
    (hid : id = event_funcEntry ∨ id = event_funcExit) (srcAddr dstAddr : ADDRESS)
    (eventTS : TIMESTAMP) :
    ((s.addEvent t id core srcAddr dstAddr eventTS).2.cores core).Follows core
    (added ++ [callFields id srcAddr dstAddr]) := by
  have hallocate : ((s.update core { s.cores core with allocated := true }).cores core).Follows
      core added := by
    rw [update_self]
    exact ⟨h.index, fun _ => rfl, h.calls, h.log⟩
  have hallocated : ((s.update core { s.cores core with allocated := true }).cores core).allocated =
      true := by
    rw [update_self]
  unfold addEvent
  dsimp only
  generalize s.update core { s.cores core with allocated := true } = s₁ at *
  by_cases hfull : (s₁.cores core).eventIndex = DQR_MAXCORES
  · obtain ⟨s', hflush, hfollows, hzero, hsame⟩ := flushEvents_follows (t := t) hallocate
    rw [if_pos hfull, hflush]
    exact putEvent_follows hfollows (hzero ▸ by decide) (hsame.trans hallocated) hid srcAddr
      dstAddr eventTS
  · rw [if_neg hfull]
    exact putEvent_follows hallocate (Nat.lt_of_le_of_ne hallocate.index hfull) hallocated hid
      srcAddr dstAddr eventTS

def Op.fields : Op → CTF.Fields
  | .addCall _ srcAddr dstAddr _ => .func_entry srcAddr dstAddr
  | .addRet _ srcAddr dstAddr _ => .func_exit srcAddr dstAddr

def added (core : ℕ) (ops : List Op) : List CTF.Fields := (ops.filter (·.core = core)).map Op.fields

theorem step_follows {calls : List CTF.Fields} (h : (s.cores core).Follows core calls) (op : Op) :
    ((s.step t op).cores core).Follows core (calls ++ added core [op]) := by
  by_cases hcore : op.core = core
  · have hadded : added core [op] = [op.fields] := by
      simp [added, hcore]
    rw [hadded]
    subst hcore
    cases op with
    | addCall core srcAddr dstAddr eventTS =>
      exact addEvent_follows h (Or.inl rfl) srcAddr dstAddr eventTS
    | addRet core srcAddr dstAddr eventTS =>
      exact addEvent_follows h (Or.inr rfl) srcAddr dstAddr eventTS
  · have hadded : added core [op] = [] := by
      simp [added, hcore]
    have hne : core ≠ op.core := fun heq => hcore heq.symm
    have hsame : (s.step t op).cores core = s.cores core := by
      cases op with
      | addCall i srcAddr dstAddr eventTS => exact addEvent_of_ne hne _ srcAddr dstAddr eventTS
      | addRet i srcAddr dstAddr eventTS => exact addEvent_of_ne hne _ srcAddr dstAddr eventTS
    rw [hadded, List.append_nil, hsame]
    exact h

theorem run_follows {calls : List CTF.Fields} (h : (s.cores core).Follows core calls)
    (ops : List Op) : ((s.run t ops).cores core).Follows core (calls ++ added core ops) := by
  induction ops generalizing s calls with
  | nil =>
    rw [added, List.filter_nil, List.map_nil, List.append_nil]
    exact h
  | cons op ops ih =>
    have hadded : added core (op :: ops) = added core [op] ++ added core ops := by
      rw [added, added, added, ← List.map_append, ← List.filter_append]
      rfl
    rw [hadded, ← List.append_assoc]
    exact ih (step_follows h op)

theorem flushLoop_follows {calls : List CTF.Fields} (h : (s.cores core).Follows core calls)
    (is : List ℕ) (his : core ∈ is ∨ (s.cores core).eventIndex = 0) :
    ((is.foldl (fun s i => if 0 < (s.cores i).eventIndex then (s.flushEvents t i).2 else s) s).cores
      core).Follows core calls ∧
      ((is.foldl (fun s i => if 0 < (s.cores i).eventIndex then (s.flushEvents t i).2 else s)
        s).cores core).eventIndex = 0 := by
  induction is generalizing s with
  | nil => exact ⟨h, his.resolve_left List.not_mem_nil⟩
  | cons i is ih =>
    rw [List.foldl_cons]
    by_cases hi : core = i
    · subst hi
      by_cases hpos : 0 < (s.cores core).eventIndex
      · obtain ⟨s', hflush, hfollows, hzero, -⟩ := flushEvents_follows (t := t) h
        rw [if_pos hpos, hflush]
        exact ih hfollows (Or.inr hzero)
      · rw [if_neg hpos]
        exact ih h (Or.inr (by omega))
    · have hsame : (if 0 < (s.cores i).eventIndex then (s.flushEvents t i).2 else s).cores core =
          s.cores core := by
        split_ifs
        · exact flushEvents_of_ne hi
        · rfl
      rw [← hsame] at h his
      exact ih h (his.imp_left fun hmem => (List.mem_cons.mp hmem).resolve_left hi)

theorem run_of_ne {i : ℕ} {ops : List Op} (h : ∀ op ∈ ops, op.core ≠ i) :
    (s.run t ops).cores i = s.cores i := by
  induction ops generalizing s with
  | nil => rfl
  | cons op ops ih =>
    obtain ⟨hop, hops⟩ := List.forall_mem_cons.mp h
    have hrun : s.run t (op :: ops) = (s.step t op).run t ops := rfl
    rw [hrun, ih hops]
    cases op with
    | addCall core => exact addEvent_of_ne (Ne.symm hop) _ _ _ _
    | addRet core => exact addEvent_of_ne (Ne.symm hop) _ _ _ _

theorem flushLoop_of_empty {i : ℕ} (hempty : (s.cores i).eventIndex = 0) (is : List ℕ) :
    (is.foldl (fun s i => if 0 < (s.cores i).eventIndex then (s.flushEvents t i).2 else s) s).cores
      i =
      s.cores i := by
  induction is generalizing s with
  | nil => rfl
  | cons j is ih =>
    have hsame : (if 0 < (s.cores j).eventIndex then (s.flushEvents t j).2 else s).cores i =
        s.cores i := by
      split_ifs with hpos
      · refine flushEvents_of_ne fun hij => ?_
        rw [← hij, hempty] at hpos
        exact absurd hpos (Nat.lt_irrefl 0)
      · rfl
    rw [List.foldl_cons, ih (by rw [hsame, hempty]), hsame]

/-- The file of a core whose buffer is empty, for readers who know the given streams. -/
theorem follows_file {c : CTFCore} {calls : List CTF.Fields} (h : c.Follows core calls)
    (hzero : c.eventIndex = 0) (declares : BitVec 32 → Prop) :
    if calls = [] then c.file = []
    else CTF.HoldsEvents declares c.file calls ↔ declares (BitVec.ofNat 32 core) := by
  obtain ⟨packets, calls', hfile, hpackets, rfl, hstream⟩ := h.log
  have hbuffered : c.buffered = [] := by
    rw [buffered, hzero]
    rfl
  rw [hbuffered, List.map_nil, List.append_nil]
  by_cases hflag : c.headerFlag = true
  · rw [if_pos hflag] at hstream
    obtain ⟨hne, dump, rest, rfl, hdump, hrest, hcalls⟩ := hstream
    have hread := CTF.readFile_flatMap fun p hp => (hpackets p hp).toWellFormed
    rw [if_neg hne, hfile]
    constructor
    · rintro ⟨dump', rest', hread', -, -, hlooked, -⟩
      rw [hread, List.map_cons, Option.some.injEq, List.cons.injEq] at hread'
      have hdeclared := (hlooked dump' List.mem_cons_self).1.2
      rw [← hread'.1, (hpackets dump List.mem_cons_self).header] at hdeclared
      exact hdeclared
    · intro hdeclares
      have hlooked : ∀ p ∈ (dump :: rest).map fun p => (p.bytes, p), p.2.header.Declared declares ∧
          p.2.context.content_size.toNat = 8 * p.1.length ∧
          p.2.context.packet_size.toNat = 8 * p.1.length :=
        List.forall_mem_map.mpr fun p hp =>
          ⟨by rw [(hpackets p hp).header]; exact ⟨rfl, hdeclares⟩, (hpackets p hp).content_size,
            (hpackets p hp).packet_size⟩
      refine ⟨(dump.bytes, dump), rest.map fun p : CTF.Packet => (p.bytes, p), hread, hdump,
        List.forall_mem_map.mpr hrest, hlooked, ?_⟩
      rw [List.flatMap_map]
      exact hcalls
  · rw [if_neg hflag] at hstream
    rw [if_pos hstream.2, hfile, hstream.1]
    rfl

theorem flushAll_file (t : CTFSettings) (memory : ℕ → ℕ → CTFEvent) (ops : List Op)
    (hcore : core < DQR_MAXCORES) (declares : BitVec 32 → Prop) :
    (((init memory).run t ops).cores core).eventIndex ≤ eventBufferSize ∧
      if added core ops = [] then ((((init memory).run t ops).flushAll t).cores core).file = []
      else CTF.HoldsEvents declares ((((init memory).run t ops).flushAll t).cores core).file
        (added core ops) ↔ declares (BitVec.ofNat 32 core) := by
  have hinit : ((init memory).cores core).Follows core [] := follows_init core (memory core)
  have hrun := run_follows (t := t) hinit ops
  rw [List.nil_append] at hrun
  obtain ⟨hfollows, hzero⟩ := flushLoop_follows (t := t) hrun (List.range DQR_MAXCORES)
    (Or.inl (List.mem_range.mpr hcore))
  unfold flushAll
  exact ⟨Nat.le_trans hrun.index (by decide), follows_file hfollows hzero declares⟩

/-- **The files** after calls on cores below `numCores`. The file of such a core holds the
events that were added for it, for a reader who knows the stream with the number of the core,
and is empty if there are none. No event is put behind the end of a buffer, and nothing is
kept for any other core. -/
theorem files_holdEvents (t : CTFSettings) (memory : ℕ → ℕ → CTFEvent) {ops : List Op}
    (hops : ∀ op ∈ ops, op.core < t.numCores) {core : ℕ} (hcore : core < t.numCores)
    {declares : BitVec 32 → Prop} (hdeclares : declares (BitVec.ofNat 32 core)) :
    (∀ i, t.numCores ≤ i → (((init memory).run t ops).flushAll t).cores i = (init memory).cores i) ∧
      (((init memory).run t ops).cores core).eventIndex ≤ eventBufferSize ∧
      if added core ops = [] then ((((init memory).run t ops).flushAll t).cores core).file = []
      else CTF.HoldsEvents declares ((((init memory).run t ops).flushAll t).cores core).file
        (added core ops) := by
  have hmax : core < DQR_MAXCORES := Nat.lt_of_lt_of_le hcore t.numCores_le
  obtain ⟨hindex, hfile⟩ := flushAll_file t memory ops hmax declares
  refine ⟨fun i hi => ?_, hindex, ?_⟩
  · have hsame : ((init memory).run t ops).cores i = (init memory).cores i :=
      run_of_ne fun op hop => Nat.ne_of_lt (Nat.lt_of_lt_of_le (hops op hop) hi)
    have hempty : (((init memory).run t ops).cores i).eventIndex = 0 :=
      (congrArg CTFCore.eventIndex hsame).trans rfl
    unfold flushAll
    exact (flushLoop_of_empty hempty _).trans hsame
  · split_ifs at hfile ⊢
    · exact hfile
    · exact hfile.mpr hdeclares

def twoCores : CTFSettings where
  elfPath := [0x2f]
  elfName := [0x61]
  numCores := 2
  elfPath_length := by decide
  elfName_length := by decide
  chars := by decide
  numCores_le := by decide

def zeros : ℕ → ℕ → CTFEvent := fun _ _ => ⟨0, 0, 0, 0, 0⟩

/-- A call and a return on the first core, with a call on the second between them. -/
def threeOps : List Op := [.addCall 0 0x10 0x20 5, .addCall 1 0x14 0x30 6, .addRet 0 0x24 0x14 9]

theorem files_holdEvents_first :
    CTF.HoldsEvents (· ∈ CTF.declaredStreams)
      ((((init zeros).run twoCores threeOps).flushAll twoCores).cores 0).file
      [.func_entry 0x10 0x20, .func_exit 0x24 0x14] := by
  have hadded : added 0 threeOps = [.func_entry 0x10 0x20, .func_exit 0x24 0x14] := rfl
  have hops : ∀ op ∈ threeOps, op.core < twoCores.numCores := by decide
  have hcore : 0 < twoCores.numCores := by decide
  have hdeclared : BitVec.ofNat 32 0 ∈ CTF.declaredStreams := by decide
  have hfile := (files_holdEvents twoCores zeros hops hcore hdeclared).2.2
  rw [hadded, if_neg (List.cons_ne_nil _ _)] at hfile
  exact hfile

/-- For a core without events nothing is written, not even a state dump. The packets of the second
core are of a stream that the metadata does not declare. -/
theorem not_holdsEvents_second :
    ¬ CTF.HoldsEvents (· ∈ CTF.declaredStreams)
        ((((init zeros).run twoCores [.addCall 0 0x10 0x20 5]).flushAll twoCores).cores 1).file
        (added 1 [.addCall 0 0x10 0x20 5]) ∧
      ¬ CTF.HoldsEvents (· ∈ CTF.declaredStreams)
        ((((init zeros).run twoCores threeOps).flushAll twoCores).cores 1).file
        (added 1 threeOps) := by
  constructor
  · have hfile : ((((init zeros).run twoCores [.addCall 0 0x10 0x20 5]).flushAll twoCores).cores
        1).file = [] := rfl
    rintro ⟨dump, packets, hread, -⟩
    rw [hfile] at hread
    cases hread
  · have hcore : 1 < DQR_MAXCORES := by decide
    have hfile := (flushAll_file twoCores zeros threeOps hcore (· ∈ CTF.declaredStreams)).2
    rw [if_neg (by decide)] at hfile
    rw [hfile]
    decide

end CTFConverter

end TraceDecoder
