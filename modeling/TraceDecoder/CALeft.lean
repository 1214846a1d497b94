import TraceDecoder.CAScan

/-!
# Matching the events of a vector trace

Every pipe bit is an instruction, and the events of a vector instruction are the oldest unconsumed
bits of their kinds, each in a later group than the event before. What is left when an instruction
has been matched are all the other bits. The entries of the queue tell which these are, and how many
vector instructions have not started; a search takes the oldest bit of its kind from them.
-/

namespace TraceDecoder.CATrace

/-- The bits of every group that are unconsumed, and the groups of the start events so far. -/
structure Unconsumed where
  bits : ℕ → Byte
  starts : List ℕ

/-- What an instruction is matched with: its pipe and the group of its pipe bit, the groups of its
events, the start event first, and the number of vector instructions that have not started in a
group before its pipe bit. -/
structure Match where
  iType : InstType
  pipe : BitVec 32
  group : ℕ
  events : List ℕ
  depth : ℕ

def unread (b : List Byte) : Unconsumed := ⟨groupAt b, []⟩

def without (mask : Byte) (g : ℕ) (bits : ℕ → Byte) : ℕ → Byte :=
  Function.update bits g (bits g &&& ~~~mask)

def CAVFLAG_PIPES : Byte := CAVFLAG_V0 ||| CAVFLAG_V1

def pipeMask (record : Byte) : Byte := if record &&& CAVFLAG_V0 ≠ 0 then CAVFLAG_V0 else CAVFLAG_V1

def pipeFlag (record : Byte) : BitVec 32 :=
  if record &&& CAVFLAG_V0 ≠ 0 then CAFLAG_PIPE0 else CAFLAG_PIPE1

variable (k : ℕ)

/-- The oldest unconsumed bit of a kind from group `g₀` on. -/
def take (mask : Byte) (g₀ : ℕ) (bits : ℕ → Byte) : Option (ℕ × (ℕ → Byte)) :=
  (nextPosition (fun g => bits g &&& mask ≠ 0) g₀ (160 * k)).map fun g => (g, without mask g bits)

def takePipe (bits : ℕ → Byte) : Option ((BitVec 32 × ℕ) × (ℕ → Byte)) :=
  (nextPosition (fun g => bits g &&& CAVFLAG_PIPES ≠ 0) 0 (160 * k)).map fun g =>
    ((pipeFlag (bits g), g), without (pipeMask (bits g)) g bits)

def takeFinishes : List CAVectorTraceFlags → ℕ → (ℕ → Byte) → Option (List ℕ × (ℕ → Byte))
  | [], _, bits => some ([], bits)
  | type :: types, g, bits => do
    let (finish, bits) ← take k type.code (g + 1) bits
    let (finishes, bits) ← takeFinishes types finish bits
    return (finish :: finishes, bits)

/-- How many vector instructions have not started in a group before `g`. -/
def Unconsumed.depth (u : Unconsumed) (g : ℕ) : ℕ := (u.starts.filter (g ≤ ·)).length

/-- The events of an instruction with its pipe bit in group `g`. -/
def matchEvents (iType : InstType) (pipe : BitVec 32) (g : ℕ) (u : Unconsumed) :
    Option (Match × Unconsumed) :=
  match finishTypes iType with
  | [] => some (⟨iType, pipe, g, [], 0⟩, u)
  | types => do
    let (start, bits) ← take k CAVectorTraceFlags.start.code g u.bits
    let (finishes, bits) ← takeFinishes k types start bits
    let u : Unconsumed := ⟨bits, u.starts ++ [start]⟩
    return (⟨iType, pipe, g, start :: finishes, u.depth g⟩, u)

def matchInst (iType : InstType) (u : Unconsumed) : Option (Match × Unconsumed) := do
  let ((pipe, g), bits) ← takePipe k u.bits
  matchEvents k iType pipe g ⟨bits, u.starts⟩

def matchAll : List InstType → Unconsumed → Option (List Match × Unconsumed)
  | [], u => some ([], u)
  | iType :: iTypes, u => do
    let (found, u) ← matchInst k iType u
    let (rest, u) ← matchAll iTypes u
    return (found :: rest, u)

/-- The parameters of a call report what its instruction is matched with. -/
structure Reports (found : Match) (info : CAInfo) : Prop where
  caFlags : info.caFlags = found.pipe ||| vectorFlags found.iType
  pipeCycles : info.pipeCycles.toNat = found.group
  viStartCycles : ∀ start ∈ found.events.head?, info.viStartCycles.toNat = start
  viFinishCycles : ∀ finish ∈ found.events.getLast?, info.viFinishCycles.toNat = finish
  qDepth : found.events ≠ [] → info.qDepth.toNat = found.depth % 256

open RingIndex EStateM CATraceQItem

variable {b : List Byte} {k W : ℕ} {item : ℕ → CATraceQItem} {groups : List ℕ} {s : CATrace}

/-! ### Visits -/

@[simp] theorem record_count (type : CAVectorTraceFlags) (x : CATraceQItem) :
    (x.count type).record = x.record := by cases type <;> rfl

@[simp] theorem cycle_count (type : CAVectorTraceFlags) (x : CATraceQItem) : (x.count type).cycle =
    x.cycle := by cases type <;> rfl

theorem qDepth_count {type : CAVectorTraceFlags} (h : type ≠ .start) (x : CATraceQItem) :
    (x.count type).qDepth = x.qDepth := by
  cases type <;> first | rfl | exact absurd rfl h

theorem and_pipes (record : Byte) : record &&& CAVFLAG_PIPES = 0 ↔ record &&& CAVFLAG_V0 = 0 ∧
    record &&& CAVFLAG_V1 = 0 := by
  rw [CAVFLAG_PIPES, BitVec.and_or_distrib_left]
  exact BitVec.or_eq_zero_iff

theorem visitPipe_eq (x : CATraceQItem) : x.visitPipe =
    if x.record &&& CAVFLAG_PIPES ≠ 0 then ({ x with record := x.record &&& ~~~pipeMask x.record },
        some (pipeFlag x.record, x.cycle))
    else (x, none) := by
  have hpipes := and_pipes x.record
  rw [visitPipe, pipeMask, pipeFlag]
  by_cases h0 : x.record &&& CAVFLAG_V0 ≠ 0
  · have hne : x.record &&& CAVFLAG_PIPES ≠ 0 := fun heq => h0 (hpipes.mp heq).1
    rw [if_pos h0, if_pos hne, if_pos h0, if_pos h0]
  · rw [if_neg h0]
    by_cases h1 : x.record &&& CAVFLAG_V1 ≠ 0
    · have hne : x.record &&& CAVFLAG_PIPES ≠ 0 := fun heq => h1 (hpipes.mp heq).2
      rw [if_pos h1, if_pos hne, if_neg h0, if_neg h0]
    · have heq : x.record &&& CAVFLAG_PIPES = 0 := hpipes.mpr ⟨not_not.mp h0, not_not.mp h1⟩
      rw [if_neg h1, if_neg (not_not.mpr heq)]

theorem findsInRecord_visitPipe : FindsInRecord visitPipe where
  empty x hx := by simp [visitPipe_eq, hx]
  keeps x hx := by
    rw [visitPipe_eq] at hx ⊢
    split_ifs at hx ⊢
    rfl
  cycle x := by
    rw [visitPipe_eq]
    split_ifs <;> rfl

theorem findsInRecord_visitVector (type : CAVectorTraceFlags) :
    FindsInRecord (visitVector type) where
  empty x hx := by simp [visitVector, hx]
  keeps x hx := by
    simp only [visitVector] at hx ⊢
    split_ifs at hx ⊢
    exact record_count type x
  cycle x := by
    simp only [visitVector]
    split_ifs <;> exact cycle_count type x

/-! ### What is left -/

/-- What is left of the groups, as the unconsumed bits and the starts tell. No pipe bits are left
before group `m`. -/
structure Describes (u : Unconsumed) (m : ℕ) (item : ℕ → CATraceQItem) : Prop where
  record : ∀ g, (item g).record = u.bits g
  cycle : ∀ g, (item g).cycle = BitVec.ofNat 32 g
  depth : ∀ g, m ≤ g → (item g).qDepth = BitVec.ofNat 8 (u.depth g)
  pipes : ∀ g < m, u.bits g &&& CAVFLAG_PIPES = 0

section
variable {α : Type} {visit : CATraceQItem → CATraceQItem × Option α} {g₀ g i : ℕ} {a : α}
    {front back : List ℕ} {s' : CATrace}

/-- A search changes the record of the group it stops at only. -/
theorem Found.record (hvisit : FindsInRecord visit)
    (h : Found visit b k item g₀ s a i g front back W s') (g' : ℕ) :
    (visitedIn visit g₀ (g + 1) item g').record = if g' = g then (visit (item g)).1.record
      else (item g').record := by
  obtain ⟨hge, -, -, hfirst⟩ := nextPosition_eq_some_iff.mp h.next
  rw [visitedIn]
  by_cases heq : g' = g
  · subst heq
    rw [if_pos ⟨hge, Nat.lt_succ_self _⟩, if_pos rfl]
  · rw [if_neg heq]
    split_ifs with hin
    · exact hvisit.keeps _ (Option.isSome_eq_false_iff.mp (hfirst g' hin.1 (by omega)) |>
        Option.isNone_iff_eq_none.mp)
    · rfl

theorem Found.item_cycle (hvisit : FindsInRecord visit)
    (_ : Found visit b k item g₀ s a i g front back W s') (g' : ℕ) :
    (visitedIn visit g₀ (g + 1) item g').cycle = (item g').cycle := by
  rw [visitedIn]
  split_ifs
  · exact hvisit.cycle _
  · rfl

variable {u : Unconsumed} {m : ℕ}

theorem without_eq (mask : Byte) (g : ℕ) (bits : ℕ → Byte) (g' : ℕ) :
    without mask g bits g' = if g' = g then bits g &&& ~~~mask else bits g' :=
  Function.update_apply bits g _ g'

theorem without_and {mask other : Byte} {bits : ℕ → Byte} {g g' : ℕ} (h : bits g' &&& other = 0) :
    without mask g bits g' &&& other = 0 := by
  rw [without_eq]
  split_ifs with heq
  · subst heq
    rw [BitVec.and_assoc, BitVec.and_comm (~~~mask), ← BitVec.and_assoc, h]
    exact BitVec.zero_and
  · exact h

theorem Describes.takePipe {found : BitVec 32 × BitVec 32} (h : Describes u m item)
    (hfound : Found visitPipe b k item 0 s found i g front back W s') :
    CATrace.takePipe k u.bits = some ((found.1, g), without (pipeMask (u.bits g)) g u.bits) ∧
      found.2 = BitVec.ofNat 32 g ∧
      Describes ⟨without (pipeMask (u.bits g)) g u.bits, u.starts⟩ g
        (visitedIn visitPipe 0 (g + 1) item) := by
  have hsome : ∀ x : CATraceQItem, (visitPipe x).2.isSome = decide (x.record &&& CAVFLAG_PIPES ≠
      0) := fun x => by
    rw [visitPipe_eq]
    split_ifs with hp
    · exact (decide_eq_true hp).symm
    · exact (decide_eq_false hp).symm
  have hnext := hfound.next
  simp only [nextFound, hsome, h.record] at hnext
  obtain ⟨-, -, hpipe, hfirst⟩ := nextPosition_eq_some_iff.mp hnext
  have hbit : (item g).record &&& CAVFLAG_PIPES ≠ 0 := by
    rw [h.record]
    exact of_decide_eq_true hpipe
  have hvisit := visitPipe_eq (item g)
  rw [if_pos hbit] at hvisit
  have hresult := hfound.found
  rw [hvisit, Option.some.injEq] at hresult
  have hmiss : ∀ g' < g, (visitPipe (item g')).1 = item g' := fun g' hg' => by
    have hnone := hfirst g' (Nat.zero_le _) hg'
    rw [← h.record] at hnone
    rw [visitPipe_eq, if_neg (of_decide_eq_false hnone)]
  have hm : m ≤ g := by
    by_contra hlt
    exact of_decide_eq_true hpipe (h.pipes g (by omega))
  refine ⟨?_, ?_, ?_, ?_, ?_, ?_⟩
  · rw [CATrace.takePipe, hnext, ← hresult, h.record]
    rfl
  · rw [← hresult, ← h.cycle]
  · intro g'
    rw [hfound.record findsInRecord_visitPipe, hvisit]
    simp only [without_eq, h.record]
  · intro g'
    rw [hfound.item_cycle findsInRecord_visitPipe, h.cycle]
  · intro g' hg'
    have hdepth := h.depth g' (by omega)
    rw [visitedIn]
    split_ifs with hin
    · obtain rfl : g' = g := by omega
      rw [hvisit]
      exact hdepth
    · exact hdepth
  · intro g' hg'
    have hnone := of_decide_eq_false (hfirst g' (Nat.zero_le _) hg')
    exact without_and (not_not.mp hnone)

/-- The search for a bit of a vector instruction takes the oldest. -/
theorem Describes.take {type : CAVectorTraceFlags} {cycle : BitVec 32} (h : Describes u m item)
    (hfound : Found (visitVector type) b k item g₀ s cycle i g front back W s') :
    CATrace.take k type.code g₀ u.bits = some (g, without type.code g u.bits) ∧
      cycle = BitVec.ofNat 32 g ∧
      (∀ g', (visitedIn (visitVector type) g₀ (g + 1) item g').record = without type.code g
        u.bits g') := by
  have hsome : ∀ x : CATraceQItem, (visitVector type x).2.isSome = decide (x.record &&& type.code ≠
      0) := fun x => by
    simp only [visitVector, record_count]
    split_ifs with hp
    · exact (decide_eq_true hp).symm
    · exact (decide_eq_false hp).symm
  have hnext := hfound.next
  simp only [nextFound, hsome, h.record] at hnext
  obtain ⟨-, -, hbit, -⟩ := nextPosition_eq_some_iff.mp hnext
  have hbit' : (item g).record &&& type.code ≠ 0 := by
    rw [h.record]
    exact of_decide_eq_true hbit
  have hresult := hfound.found
  simp only [visitVector, record_count, if_pos hbit', cycle_count, Option.some.injEq] at hresult
  refine ⟨?_, ?_, ?_⟩
  · rw [CATrace.take, hnext]
    rfl
  · rw [← hresult, h.cycle]
  · intro g'
    have hrecord : (visitVector type (item g)).1.record = (item g).record &&& ~~~type.code := by
      simp only [visitVector, record_count, if_pos hbit']
    rw [hfound.record (findsInRecord_visitVector type), hrecord, without_eq, h.record, h.record]

/-- A start event counts in all groups that its search has passed. -/
theorem Describes.take_start {cycle : BitVec 32} (h : Describes u g₀ item)
    (hfound : Found (visitVector .start) b k item g₀ s cycle i g front back W s') :
    Describes ⟨without CAVectorTraceFlags.start.code g u.bits, u.starts ++ [g]⟩ g₀
      (visitedIn (visitVector .start) g₀ (g + 1) item) := by
  refine ⟨(h.take hfound).2.2, fun g' => ?_, fun g' hg' => ?_, fun g' hg' => without_and
    (h.pipes g' hg')⟩
  · rw [hfound.item_cycle (findsInRecord_visitVector _), h.cycle]
  · have hcount : (visitVector .start (item g')).1.qDepth = (item g').qDepth + 1 := by
      simp only [visitVector]
      split_ifs <;> rfl
    rw [visitedIn, Unconsumed.depth, List.filter_append, List.length_append]
    by_cases hle : g' ≤ g
    · rw [if_pos ⟨hg', by omega⟩, hcount, h.depth g' hg', Unconsumed.depth, List.filter_cons_of_pos
        (by simpa using hle), BitVec.ofNat_add]
      rfl
    · rw [if_neg (by omega), h.depth g' hg', Unconsumed.depth, List.filter_cons_of_neg
        (by simpa using hle)]
      rfl

theorem Describes.take_finish {type : CAVectorTraceFlags} (htype : type ≠ .start)
    {cycle : BitVec 32} (h : Describes u m item)
    (hfound : Found (visitVector type) b k item g₀ s cycle i g front back W s') :
    Describes ⟨without type.code g u.bits, u.starts⟩ m
      (visitedIn (visitVector type) g₀ (g + 1) item) := by
  refine ⟨(h.take hfound).2.2, fun g' => ?_, fun g' hg' => ?_, fun g' hg' => without_and
    (h.pipes g' hg')⟩
  · rw [hfound.item_cycle (findsInRecord_visitVector _), h.cycle]
  · have hcount : (visitVector type (item g')).1.qDepth = (item g').qDepth := by
      simp only [visitVector]
      split_ifs <;> exact qDepth_count htype _
    have hdepth := h.depth g' hg'
    rw [visitedIn]
    split_ifs
    · rw [hcount]
      exact hdepth
    · exact hdepth

end

end TraceDecoder.CATrace
