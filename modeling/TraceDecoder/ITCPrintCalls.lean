import TraceDecoder.ITCPrintRing

/-!
# The calls of `ITCPrint`

What a print writes into the ring of its core, and that the other calls leave the characters in the
rings where they are.
-/

namespace TraceDecoder

namespace ITCPrint

variable (p : ITCPrint) (sprintf : String → List PrintfArg → List Byte)

/-- The paths through `print`. -/
inductive PrintPath
  | ignored
  | nls (text : List Byte)
  | data (bytes : List Byte)
  deriving DecidableEq, Repr

def printPath (core : ℕ) (addr data : BitVec 32) : PrintPath :=
  if p.numCores ≤ core then .ignored
  else
    match p.nlsString addr with
    | some (nls, format) => .nls (formatted sprintf nls format (addr.toNat / 4) data)
    | none =>
      if p.itcOptFlags &&& ITC_OPT_PRINT = 0 then .ignored
      else if addr < p.printChannel * 4 ∨ (p.printChannel + 1) * 4 ≤ addr then .ignored
      else .data (dataBytes addr data)

def afterPrint (core : ℕ) (tstamp : TIMESTAMP) : PrintPath → Option ITCPrint
  | .ignored => some p
  | .nls text => p.printNls core text tstamp
  | .data bytes => p.printData core bytes tstamp

theorem call_print (core : ℕ) (addr data : BitVec 32) (tstamp : TIMESTAMP) :
    p.call sprintf (.print core addr data tstamp) =
      (p.afterPrint core tstamp (p.printPath sprintf core addr data)).map fun p' => (none, p') := by
  have hmap : ∀ o : Option ITCPrint, (o.map fun p => (true, p)).map
      (fun r => ((none : Option Printed), r.2)) = o.map fun p' => (none, p') :=
        fun o => Option.map_map _ _ o
  rw [call, print, printPath]
  split_ifs <;> cases p.nlsString addr <;> first | rfl | exact hmap _

/-! ### The characters of a print -/

def printed (core : ℕ) : PrintPath → List Byte
  | .ignored => []
  | .nls text =>
    let q := (p.terminate core).queue core
    (if p.inProgress core then [0x00] else []) ++ (text.take (q.roomInITCPrintQ p.buffSize - 1) ++
      [0x00])
  | .data bytes => PrintQueue.stored bytes ((p.queue core).roomInITCPrintQ p.buffSize)

variable {p} {p' : ITCPrint} {core : ℕ} {tstamp : TIMESTAMP}

@[simp] theorem setQueue_queue (q : PrintQueue) (c : ℕ) :
    (p.setQueue core q).queue c = if c = core then q else p.queue c := rfl

theorem terminate_queue (p : ITCPrint) (core : ℕ) :
    (p.terminate core).queue core =
      if p.inProgress core then ((p.queue core).put p.buffSize 0x00).addMsg else p.queue core := by
  rw [terminate, inProgress]
  cases p.lists.tsList core with
  | none => rfl
  | some h =>
    cases ht : (p.lists.record h).terminated with
    | true => simp [ht]
    | false => simp [ht]

theorem terminate_config (p : ITCPrint) (core : ℕ) :
    (p.terminate core).buffSize = p.buffSize ∧ ∀ c ≠ core, (p.terminate core).queue c =
      p.queue c := by
  rw [terminate]
  cases p.lists.tsList core with
  | none => exact ⟨rfl, fun _ _ => rfl⟩
  | some h =>
    dsimp only
    split_ifs
    · exact ⟨rfl, fun _ _ => rfl⟩
    · exact ⟨rfl, fun _ hc => if_neg hc⟩

def added (p : ITCPrint) (core : ℕ) : PrintPath → ℕ
  | .ignored => 0
  | .nls _ => (if p.inProgress core then 1 else 0) + 1
  | .data bytes => (PrintQueue.stored bytes ((p.queue core).roomInITCPrintQ p.buffSize)).count 0x00

def PrintPath.finish (q : PrintQueue) : PrintPath → PrintQueue
  | .data _ => q.poke 0x00
  | _ => q

theorem afterPrint_queue {path : PrintPath} (h : p.afterPrint core tstamp path = some p') :
    p'.buffSize = p.buffSize ∧ (∀ c ≠ core, p'.queue c = p.queue c) ∧
      p'.queue core = path.finish (((p.queue core).putAll p.buffSize (p.printed core path)).withMsgs
        ((p.queue core).numMsgs + p.added core path)) := by
  cases path with
  | ignored =>
    obtain rfl : p = p' := Option.some.inj h
    exact ⟨rfl, fun _ _ => rfl, congrArg (p.queue core).withMsgs (Int.add_zero _).symm⟩
  | nls text =>
    obtain ⟨⟨w, l⟩, -, hp'⟩ := Option.map_eq_some_iff.mp h
    obtain ⟨hsize, hother⟩ := terminate_config p core
    have hqueue := terminate_queue p core
    subst hp'
    refine ⟨hsize, fun c hc => (if_neg hc).trans (hother c hc), ?_⟩
    dsimp only [PrintPath.finish, printed, added]
    rw [setQueue_queue, if_pos rfl, PrintQueue.putText_eq, hsize, PrintQueue.putAll_append,
      PrintQueue.putAll_append]
    set n := ((p.terminate core).queue core).roomInITCPrintQ p.buffSize - 1
    rw [hqueue]
    by_cases hprogress : p.inProgress core = true
    · have hmsgs : (p.queue core).numMsgs + 1 + 1 = (p.queue core).numMsgs + ((1 + 1 : ℕ) : ℤ) := by
        omega
      simp only [hprogress, if_true, PrintQueue.addMsg_eq, PrintQueue.putAll_withMsgs]
      exact congrArg ((((p.queue core).put p.buffSize 0x00).putAll p.buffSize (text.take n)).put
        p.buffSize 0x00).withMsgs hmsgs
    · simp only [hprogress, PrintQueue.addMsg_eq, PrintQueue.put_numMsgs, PrintQueue.putAll_numMsgs]
      rfl
  | data bytes =>
    obtain ⟨⟨w, l⟩, -, hp'⟩ := Option.map_eq_some_iff.mp h
    subst hp'
    refine ⟨rfl, fun c hc => if_neg hc, ?_⟩
    dsimp only [PrintPath.finish, printed, added]
    rw [setQueue_queue, if_pos rfl, PrintQueue.putData_eq]

/-! ### Reading -/

/-- A call that reads leaves the characters in the rings where they are. -/
structure Reads (p p' : ITCPrint) : Prop where
  buffSize : p'.buffSize = p.buffSize
  pbuff : ∀ c, (p'.queue c).pbuff = (p.queue c).pbuff
  inRing : ∀ c, (p.queue c).InRing p.buffSize → (p'.queue c).InRing p.buffSize

theorem Reads.refl (p : ITCPrint) : Reads p p := ⟨rfl, fun _ => rfl, fun _ h => h⟩

theorem reads_lists (p : ITCPrint) (l : TsLists) : Reads p { p with lists := l } :=
  ⟨rfl, fun _ => rfl, fun _ h => h⟩

theorem reads_setQueue (l : TsLists) {numMsgs : ℤ} {pbo : ℕ}
    (hpbo : (p.queue core).InRing p.buffSize → pbo < p.buffSize) :
    Reads p { p.setQueue core { p.queue core with numMsgs := numMsgs, pbo := pbo } with lists :=
  l } := by
  refine ⟨rfl, fun c => ?_, fun c hc => ?_⟩
  · by_cases h : c = core
    · simp [h]
    · simp [h]
  · by_cases h : c = core
    · subst h
      simp only [setQueue_queue, if_true]
      exact ⟨hc.pbi, hpbo hc⟩
    · simp only [setQueue_queue, h, if_false]
      exact hc

theorem readMsg_lt (q : PrintQueue) {buffSize pbo : ℕ} (n : ℕ) (hpbo : pbo < buffSize) :
    (q.readMsg buffSize n pbo).2 < buffSize := by
  induction n generalizing pbo with
  | zero => exact hpbo
  | succ n ih =>
    rw [PrintQueue.readMsg]
    split_ifs
    · exact hpbo
    · exact ih (PrintQueue.advance_lt hpbo)

theorem readStr_lt (q : PrintQueue) {buffSize pbo : ℕ} {n : ℕ} {r : List Byte × ℕ}
    (hpbo : pbo < buffSize) (h : q.readStr buffSize n pbo = some r) : r.2 < buffSize := by
  induction n generalizing pbo r with
  | zero => cases h
  | succ n ih =>
    rw [PrintQueue.readStr] at h
    split_ifs at h
    · cases h
      exact hpbo
    · obtain ⟨r', hr', rfl⟩ := Option.map_eq_some_iff.mp h
      have hlt := ih (PrintQueue.advance_lt hpbo) hr'
      exact hlt

variable {haveDst : Bool} {dstLen : ℤ} {r : Option Printed × ITCPrint}

theorem reads_getITCPrintMsg (h : p.getITCPrintMsg core haveDst dstLen = some r) : Reads p r.2 := by
  rw [getITCPrintMsg] at h
  dsimp only at h
  split_ifs at h
  · cases h
    exact .refl p
  · obtain ⟨⟨tsl, l⟩, -, rfl⟩ := Option.map_eq_some_iff.mp h
    cases tsl with
    | none => exact reads_lists p l
    | some tsl => exact reads_setQueue l fun hin => PrintQueue.advance_lt (readMsg_lt _ _ hin.pbo)
  · cases h
    exact .refl p

theorem reads_getITCPrintStr (h : p.getITCPrintStr core = some r) : Reads p r.2 := by
  rw [getITCPrintStr] at h
  dsimp only at h
  split_ifs at h
  · cases h
    exact .refl p
  · obtain ⟨⟨tsl, l⟩, -, hrest⟩ := Option.bind_eq_some_iff.mp h
    cases tsl with
    | none =>
      cases hrest
      exact reads_lists p l
    | some tsl =>
      obtain ⟨read, hread, rfl⟩ := Option.map_eq_some_iff.mp hrest
      exact reads_setQueue l fun hin => PrintQueue.advance_lt (readStr_lt _ hin.pbo hread)
  · cases h
    exact .refl p

theorem reads_flushITCPrintMsg (h : p.flushITCPrintMsg core haveDst dstLen = some r) :
    Reads p r.2 := by
  rw [flushITCPrintMsg] at h
  dsimp only at h
  split_ifs at h
  · cases h
    exact .refl p
  · exact reads_getITCPrintMsg h
  · cases h
    exact .refl p
  · obtain ⟨⟨tsl, l⟩, -, rfl⟩ := Option.map_eq_some_iff.mp h
    cases tsl with
    | none => exact reads_lists p l
    | some tsl =>
      dsimp only
      split_ifs
      · exact reads_lists p l
      · exact reads_setQueue l fun hin => readMsg_lt _ _ hin.pbo

theorem reads_flushITCPrintStr (h : p.flushITCPrintStr core = some r) : Reads p r.2 := by
  rw [flushITCPrintStr] at h
  dsimp only at h
  split_ifs at h
  · cases h
    exact .refl p
  · exact reads_getITCPrintStr h
  · cases h
    exact .refl p
  · obtain ⟨⟨tsl, l⟩, -, hrest⟩ := Option.bind_eq_some_iff.mp h
    cases tsl with
    | none =>
      cases hrest
      exact reads_lists p l
    | some tsl =>
      dsimp only at hrest
      split_ifs at hrest
      · cases hrest
        exact reads_lists p l
      · obtain ⟨read, hread, rfl⟩ := Option.map_eq_some_iff.mp hrest
        exact reads_setQueue l fun hin => readStr_lt _ hin.pbo hread

/-! ### Runs -/

variable {sprintf}

/-- What holds at the start and is kept by every call holds in the state of each call of a run. -/
theorem forall_calls {inv : ITCPrint → Prop} (hstep : ∀ p op r, inv p → p.call sprintf op =
      some r → inv r.2)
    (hp : inv p) (ops : List Op) : ∀ c ∈ p.calls sprintf ops, inv c.1 := by
  induction ops generalizing p with
  | nil => exact List.forall_mem_nil _
  | cons op ops ih =>
    rw [calls]
    refine List.forall_mem_cons.mpr ⟨hp, ?_⟩
    cases hcall : p.call sprintf op with
    | none => exact List.forall_mem_nil _
    | some r => exact ih (hstep p op r hp hcall)

end ITCPrint

end TraceDecoder
