import TraceDecoder.ITCPrintArrays

/-!
# Overruns of the print ring

The plain path of `print` writes only what there is room for. The null characters of the
no-load-string path are written whether there is room or not.
-/

namespace TraceDecoder

open RingIndex

namespace ITCPrint

variable {p : ITCPrint} {sprintf : String → List PrintfArg → List Byte} {core : ℕ}

def InRings (p : ITCPrint) : Prop := ∀ core, (p.queue core).InRing p.buffSize

theorem inRings_init (itcPrintOpts : BitVec 32) (numCores buffSize : ℤ) (channel : BitVec 32)
    (nlsStrings : Option (ℕ → NlString)) (memory : ℕ → ℕ → Byte) :
    InRings (ITCPrint.init itcPrintOpts numCores buffSize channel nlsStrings memory) := by
  have hsize : 0 < (ITCPrint.init itcPrintOpts numCores buffSize channel nlsStrings
      memory).buffSize := by
    dsimp only [ITCPrint.init]
    split_ifs with h
    · exact Nat.succ_pos _
    · simp only [not_or, Int.not_le] at h
      exact Int.pos_iff_toNat_pos.mp h.2
  exact fun core => ⟨hsize, hsize⟩

theorem inRings_call {op : Op} {r : Option Printed × ITCPrint} (hp : InRings p)
    (h : p.call sprintf op = some r) :
    InRings r.2 := by
  have hreads : Reads p r.2 → InRings r.2 := fun hreads c => by
    rw [hreads.buffSize]
    exact hreads.inRing c (hp c)
  cases op with
  | print core addr data tstamp =>
    rw [call_print] at h
    obtain ⟨p', hp', rfl⟩ := Option.map_eq_some_iff.mp h
    generalize p.printPath sprintf core addr data = path at hp'
    obtain ⟨hsize, hother, hqueue⟩ := afterPrint_queue hp'
    intro c
    rw [hsize]
    by_cases hc : c = core
    · have hin := ((hp core).putAll (p.printed core path)).1
      rw [hc, hqueue]
      cases path <;> exact ⟨hin.pbi, hin.pbo⟩
    · rw [hother c hc]
      exact hp c
  | getMsg => exact hreads (reads_getITCPrintMsg h)
  | getStr => exact hreads (reads_getITCPrintStr h)
  | flushMsg => exact hreads (reads_flushITCPrintMsg h)
  | flushStr => exact hreads (reads_flushITCPrintStr h)

/-! ### Overruns -/

def written (sprintf : String → List PrintfArg → List Byte) (p : ITCPrint) : Op → ℕ → List Byte
  | .print core addr data _, c =>
    if c = core then p.printed core (p.printPath sprintf core addr data) else []
  | _, _ => []

/-- In a call no input index is advanced to the output index, and no character that has not been
read is overwritten. -/
def NeverOverruns (sprintf : String → List PrintfArg → List Byte) (c : ITCPrint × Op) : Prop :=
  (∀ core, (c.1.queue core).StaysAhead c.1.buffSize (written sprintf c.1 c.2 core)) ∧
    ∀ r, c.1.call sprintf c.2 = some r → ∀ core j,
      Unread c.1.buffSize (c.1.queue core).pbo (c.1.queue core).pbi j → (r.2.queue core).pbuff j =
        (c.1.queue core).pbuff j

def HasRoom (p : ITCPrint) (core : ℕ) : PrintPath → Prop
  | .nls _ => (if p.inProgress core then 2 else 1) ≤ (p.queue core).roomInITCPrintQ p.buffSize
  | _ => True

def CallHasRoom (sprintf : String → List PrintfArg → List Byte) (c : ITCPrint × Op) : Prop :=
  match c.2 with
  | .print core addr data _ => c.1.HasRoom core (c.1.printPath sprintf core addr data)
  | _ => True

theorem length_printed_le_iff (hin : (p.queue core).InRing p.buffSize) (path : PrintPath) :
    (p.printed core path).length ≤ (p.queue core).roomInITCPrintQ p.buffSize ↔
      p.HasRoom core path := by
  cases path with
  | ignored => exact iff_of_true (Nat.zero_le _) trivial
  | data bytes => exact iff_of_true (PrintQueue.length_stored _ _) trivial
  | nls text =>
    dsimp only [printed, HasRoom]
    rw [terminate_queue]
    by_cases hprogress : p.inProgress core = true
    · have haddMsg : (((p.queue core).put p.buffSize 0x00).addMsg).roomInITCPrintQ p.buffSize =
        ((p.queue core).put p.buffSize 0x00).roomInITCPrintQ p.buffSize := rfl
      have hput := hin.room_put 0x00
      simp only [hprogress, if_true, haddMsg, List.length_append, List.length_singleton,
        List.length_take]
      omega
    · simp only [hprogress, Bool.false_eq_true, if_false, List.nil_append, List.length_append,
        List.length_singleton, List.length_take]
      omega

theorem neverOverruns_iff {c : ITCPrint × Op} (hin : InRings c.1) :
    NeverOverruns sprintf c ↔ CallHasRoom sprintf c := by
  obtain ⟨p, op⟩ := c
  have hnil : ∀ core, (p.queue core).StaysAhead p.buffSize [] :=
    fun core => ((hin core).staysAhead_iff []).mpr (Nat.zero_le _)
  have hreads : (∀ core, written sprintf p op core = []) → (∀ r, p.call sprintf op = some r → Reads p r.2) →
      NeverOverruns sprintf (p, op) := by
    intro hwritten hreads
    refine ⟨fun core => ?_, fun r hr core j _ => congrFun ((hreads r hr).pbuff core) j⟩
    rw [hwritten]
    exact hnil core
  cases op with
  | print core addr data tstamp =>
    have hiff := ((hin core).staysAhead_iff _).trans (length_printed_le_iff (hin core)
      (p.printPath sprintf core addr data))
    constructor
    · intro h
      have hcore := h.1 core
      dsimp only [written] at hcore
      rw [if_pos rfl] at hcore
      exact hiff.mp hcore
    · intro hroom
      have hlen := (length_printed_le_iff (hin core) _).mpr hroom
      refine ⟨fun c => ?_, fun r hr c j hj => ?_⟩
      · dsimp only [written]
        split_ifs with hc
        · subst hc
          exact hiff.mpr hroom
        · exact hnil c
      · rw [call_print] at hr
        obtain ⟨p', hp', rfl⟩ := Option.map_eq_some_iff.mp hr
        obtain ⟨-, hother, hqueue⟩ := afterPrint_queue hp'
        dsimp only at hj ⊢
        by_cases hc : c = core
        · subst hc
          obtain ⟨hkeep, hne⟩ := (hin c).unread_putAll hlen hj
          rw [hqueue]
          cases hpath : p.printPath sprintf c addr data with
          | data bytes =>
            rw [hpath] at hkeep hne
            exact (if_neg hne).trans hkeep
          | _ =>
            rw [hpath] at hkeep
            exact hkeep
        · rw [hother c hc]
  | getMsg => exact iff_of_true (hreads (fun _ => rfl) fun r hr => reads_getITCPrintMsg hr) trivial
  | getStr => exact iff_of_true (hreads (fun _ => rfl) fun r hr => reads_getITCPrintStr hr) trivial
  | flushMsg => exact iff_of_true (hreads (fun _ => rfl) fun r hr => reads_flushITCPrintMsg hr) trivial
  | flushStr => exact iff_of_true (hreads (fun _ => rfl) fun r hr => reads_flushITCPrintStr hr) trivial

/-- The rings are never overrun in a run exactly if each no-load-string print in it finds room for
its null character, and for the one of the message in progress, and its text room in `dst`. -/
theorem print_neverOverruns_iff (sprintf : String → List PrintfArg → List Byte)
    (itcPrintOpts : BitVec 32)
    (numCores buffSize : ℤ) (channel : BitVec 32) (nlsStrings : Option (ℕ → NlString))
    (memory : ℕ → ℕ → Byte) (ops : List Op) :
    (∀ c ∈ (ITCPrint.init itcPrintOpts numCores buffSize channel nlsStrings memory).calls
      sprintf ops,
        StaysInside sprintf c ∧ NeverOverruns sprintf c) ↔
      ∀ c ∈ (ITCPrint.init itcPrintOpts numCores buffSize channel nlsStrings memory).calls
        sprintf ops,
        FitsArrays sprintf c ∧ CallHasRoom sprintf c :=
  forall₂_congr fun c hc => and_congr staysInside_iff <| neverOverruns_iff <|
    forall_calls (fun _ _ _ => inRings_call) (inRings_init itcPrintOpts numCores buffSize channel
      nlsStrings memory) ops c hc

/-- A ring of 4 characters, with a no-load string for channel 0 and the print channel 1. -/
def ringOfFour : ITCPrint :=
  .init 3 1 4 1 (some fun channel => ⟨0, 0, if channel = 0 then some "x" else none⟩) fun _ _ => 0x00

/-- The word `abcd` leaves room for one character, but two null characters follow. -/
theorem not_neverOverruns_nls :
    ¬ ∀ c ∈ ringOfFour.calls (fun _ _ => [0x78]) [.print 0 4 0x64636261 0, .print 0 0 0 0],
    NeverOverruns (fun _ _ => [0x78]) c := by
  intro h
  have hin : InRings ringOfFour := inRings_init _ _ _ _ _ _
  set first : Op := .print 0 4 0x64636261 0
  set full := ((ringOfFour.call (fun _ _ => [0x78]) first).getD (none, ringOfFour)).2 with hfull
  have hmem : (full, Op.print 0 0 0 0) ∈ ringOfFour.calls (fun _ _ => [0x78])
      [first, .print 0 0 0 0] :=
    List.mem_cons_of_mem _ List.mem_cons_self
  have hroom :=
    (neverOverruns_iff (forall_calls (fun _ _ _ => inRings_call) hin _ _ hmem)).mp (h _ hmem)
  have hpath : full.printPath (fun _ _ => [0x78]) 0 0 0 = .nls [0x78] := by decide
  dsimp only [CallHasRoom] at hroom
  rw [hpath] at hroom
  have hless : (if full.inProgress 0 then 2 else 1) ≤ (full.queue 0).roomInITCPrintQ
    full.buffSize := hroom
  exact absurd hless (by decide)

end ITCPrint

end TraceDecoder
