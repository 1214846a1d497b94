import TraceDecoder.Lib.Grammar
import TraceDecoder.PerfReading

/-!
# What the performance converter writes

Whatever is written to the channel, and on whichever cores, no call uses a counter or an array that
is not there, and the events of a core follow the grammar of its output: the counters of a mask are
defined one after the other, and behind the head of a record come values of the counters of the mask
in order, at the address of the record.
-/

namespace TraceDecoder

open SetBits

/-! ### The grammar -/

/-- Where the output of a core stands: in front of the mask, at the counters that are to be defined,
or behind the head of a record, at the counters that may have a value. -/
inductive PerfStage
  | started
  | typed
  | defining (mask : BitVec 32) (is : List ℕ)
  | record (mask : BitVec 32) (pc : ADDRESS) (is : List ℕ)

def PerfEvent.pc? : PerfEvent → Option ADDRESS
  | .addr pc => some pc
  | .fnEntry fnAddr _ => some fnAddr
  | .fnExit _ callSite => some callSite
  | _ => none

namespace PerfStage

inductive Ready (mask : BitVec 32) : PerfStage → Prop
  | defined : Ready mask (.defining mask [])
  | record (pc : ADDRESS) (is : List ℕ) : Ready mask (.record mask pc is)

inductive Next : PerfStage → PerfEvent → PerfStage → Prop
  | first (cntType : PerfCount) : Next .started (.cntType cntType) .typed
  | again (cntType : PerfCount) : Next .typed (.cntType cntType) .typed
  | cntrMask (mask : BitVec 32) : Next .typed (.cntrMask mask) (.defining mask (bitsFrom mask 0))
  | cntrDef (mask : BitVec 32) (i : ℕ) (is : List ℕ) (type code : BitVec 32) (eventData : BitVec 64)
      (info : BitVec 32) : Next (.defining mask (i :: is)) (.cntrDef i type code eventData info)
        (.defining mask is)
  | head {mask : BitVec 32} {stage : PerfStage} {e : PerfEvent} {pc : ADDRESS}
      (hready : stage.Ready mask) (hhead : e.pc? = some pc) :
        Next stage e (.record mask pc (bitsFrom mask 0))
  | cntr (mask : BitVec 32) (pc : ADDRESS) (i : ℕ) (is : List ℕ) (val : BitVec 64) :
      Next (.record mask pc (i :: is)) (.cntr pc i val) (.record mask pc is)

end PerfStage

open PerfStage Grammar

namespace PerfCore

variable (c : PerfCore)

def Allocated : Prop := c.cntType = .deltaXOR → c.lastCount ≠ none

def AtCounter : Prop := c.cntrMask.getLsbD c.cntrMaskIndex = true

def left : List ℕ := bitsFrom c.cntrMask c.cntrMaskIndex

def Stands (stage : PerfStage) : Prop :=
  match c.state with
  | .sync | .getCntType => stage = .started ∨ stage = .typed
  | .getCntrMask => stage = .typed
  | .getCntrDef | .getCntrCode | .getCntrEventData | .getCntrInfo =>
    c.Allocated ∧ c.AtCounter ∧ stage = .defining c.cntrMask c.left
  | .getCntrRecord | .getAddr | .getCallSite =>
    (c.cntrMask ≠ 0 → c.Allocated) ∧ stage.Ready c.cntrMask
  | .getCnts => c.Allocated ∧ c.AtCounter ∧ stage = .record c.cntrMask c.cntrAddress c.left
  | .error => True

variable {c} {markerValue size data : BitVec 32}

/-- A half of a value that is kept for later changes nothing. -/
theorem stands_save {low : BitVec 32} {pending : Bool} {stage : PerfStage} (h : c.Stands stage) :
    { c with savedLow32 := low, valuePending := pending }.Stands stage := h

theorem AtCounter.lt (h : c.AtCounter) : c.cntrMaskIndex < 32 := BitVec.lt_of_getLsbD h

theorem AtCounter.left_eq (h : c.AtCounter) :
    c.left = c.cntrMaskIndex :: bitsFrom c.cntrMask (c.cntrMaskIndex + 1) := by
  rw [left, bitsFrom_of_lt _ h.lt]
  exact if_pos h

/-- The next counter is one of the mask, or there is none. -/
theorem AtCounter.nextCounter (h : c.AtCounter) :
    (32 ≤ nextCounter c.cntrMask c.cntrMaskIndex ∧ bitsFrom c.cntrMask (c.cntrMaskIndex + 1) = []) ∨
      (nextCounter c.cntrMask c.cntrMaskIndex < 32 ∧ c.cntrMask.getLsbD
      (nextCounter c.cntrMask c.cntrMaskIndex) = true ∧
        bitsFrom c.cntrMask (nextCounter c.cntrMask c.cntrMaskIndex) = bitsFrom c.cntrMask
            (c.cntrMaskIndex + 1)) := by
  have hnext := nextCounter_eq h
  have hsame := bitsFrom_headD c.cntrMask (c.cntrMaskIndex + 1)
  rw [hnext]
  cases his : bitsFrom c.cntrMask (c.cntrMaskIndex + 1) with
  | nil => exact .inl ⟨Nat.le_refl 32, rfl⟩
  | cons i is =>
    have hbit : c.cntrMask.getLsbD i = true := (mem_bitsFrom.mp (his ▸ List.mem_cons_self)).2
    rw [his, List.headD_cons] at hsame
    exact .inr ⟨BitVec.lt_of_getLsbD hbit, hbit, hsame⟩

theorem firstCounter_spec {mask : BitVec 32} (hmask : mask ≠ 0) :
    mask.getLsbD (firstCounter mask) = true ∧ bitsFrom mask (firstCounter mask) =
      bitsFrom mask 0 := by
  rw [firstCounter_eq]
  refine ⟨?_, bitsFrom_headD mask 0⟩
  cases his : bitsFrom mask 0 with
  | nil => exact absurd (bitsFrom_eq_nil.mp his) hmask
  | cons i is => exact (mem_bitsFrom.mp (his ▸ List.mem_cons_self)).2

/-! ### One pass -/

/-- What a pass may come to: it goes on in a state that ends the loop, if it goes on, and writes
along the grammar. -/
structure Passes (c : PerfCore) (r : PerfPass × PerfCore × List PerfEvent) : Prop where
  pass : r.1 = .fault → False
  again : r.1 = .again → r.2.1.state = .sync ∨ r.2.1.state = .getCntrRecord ∨ r.2.1.state = .error
  writes : Writes Next Stands c r.2.2 r.2.1

theorem writes_nil {c' : PerfCore} (h : ∀ stage, c.Stands stage → c'.Stands stage) :
    Writes Next Stands c [] c' :=
  fun stage hstage => ⟨stage, .nil stage, h stage hstage⟩

theorem toCounts_writes {pc : ADDRESS} {e : PerfEvent} (hhead : e.pc? = some pc) {c' : PerfCore}
    (hready : ∀ stage, c.Stands stage → (c'.cntrMask ≠ 0 → c'.Allocated) ∧ stage.Ready c'.cntrMask)
    (hpc : c'.cntrAddress = pc) :
    Writes Next Stands c [e] c'.toCounts := by
  intro stage hstage
  obtain ⟨halloc, hstage'⟩ := hready stage hstage
  refine ⟨.record c'.cntrMask pc (bitsFrom c'.cntrMask 0), .single (.head hstage' hhead), ?_⟩
  unfold toCounts
  split_ifs with hmask
  · obtain ⟨hbit, hsame⟩ := firstCounter_spec hmask
    refine ⟨halloc hmask, hbit, ?_⟩
    change _ = PerfStage.record c'.cntrMask c'.cntrAddress
      (bitsFrom c'.cntrMask (firstCounter c'.cntrMask))
    rw [hsame, hpc]
  · exact ⟨halloc, .record _ _⟩

theorem gotAddress_writes (hstate : c.state = .getAddr) (value : BitVec 64) :
    Writes Next Stands c (c.gotAddress value).2 (c.gotAddress value).1 := by
  have hstands : ∀ stage, c.Stands stage → (c.cntrMask ≠ 0 → c.Allocated) ∧
      stage.Ready c.cntrMask := by
    intro stage hstage
    simpa only [Stands, hstate] using hstage
  unfold gotAddress
  dsimp only
  split_ifs
  all_goals first
    | exact writes_nil hstands
    | exact toCounts_writes rfl hstands rfl

theorem gotCallSite_writes (hstate : c.state = .getCallSite) (value : BitVec 64) :
    Writes Next Stands c (c.gotCallSite value).2 (c.gotCallSite value).1 := by
  have hstands : ∀ stage, c.Stands stage → (c.cntrMask ≠ 0 → c.Allocated) ∧
      stage.Ready c.cntrMask := by
    intro stage hstage
    simpa only [Stands, hstate] using hstage
  unfold gotCallSite
  dsimp only
  split_ifs <;> exact toCounts_writes rfl hstands rfl

theorem gotHalf_passes {got : PerfCore → BitVec 64 → PerfCore × List PerfEvent}
    (hgot : ∀ value, Writes Next Stands c (got c value).2 (got c value).1) :
    c.Passes (c.gotHalf got data) := by
  unfold gotHalf
  split_ifs
  · exact ⟨by simp, by simp, hgot _⟩
  · exact ⟨by simp, by simp, writes_nil fun _ => stands_save⟩
  · exact ⟨by simp, by simp, hgot _⟩

theorem emitCount_eq (hcounter : c.AtCounter) (halloc : c.Allocated) (value : BitVec 64) :
    ∃ counts val,
    c.emitCount value = some ({ c with lastCount := counts }, .cntr c.cntrAddress c.cntrMaskIndex
        val) ∧
      (c.cntType = .deltaXOR → counts ≠ none) := by
  rw [emitCount, if_neg (Nat.not_le.mpr hcounter.lt)]
  by_cases hxor : c.cntType = .deltaXOR
  · rw [if_pos hxor]
    cases hcounts : c.lastCount with
    | none => exact absurd hcounts (halloc hxor)
    | some counts => exact ⟨_, _, rfl, by simp⟩
  · rw [if_neg hxor]
    exact ⟨c.lastCount, value, rfl, fun hxor' => absurd hxor' hxor⟩

theorem cntr_writes (hstate : c.state = .getCnts) {c' : PerfCore} (val : BitVec 64)
    (h : c.Allocated → c.AtCounter → c'.Stands (.record c.cntrMask c.cntrAddress
      (bitsFrom c.cntrMask (c.cntrMaskIndex + 1)))) :
    Writes Next Stands c [.cntr c.cntrAddress c.cntrMaskIndex val] c' := by
  intro stage hstage
  obtain ⟨halloc, hcounter, rfl⟩ : c.Allocated ∧ c.AtCounter ∧
      stage = .record c.cntrMask c.cntrAddress c.left := by
    simpa only [Stands, hstate] using hstage
  rw [hcounter.left_eq]
  exact ⟨_, .single (.cntr c.cntrMask c.cntrAddress c.cntrMaskIndex _ val), h halloc hcounter⟩

theorem gotCount_passes (hstate : c.state = .getCnts) (halloc : c.Allocated)
    (hcounter : c.AtCounter) : c.Passes (c.gotCount size data) := by
  have hready : ∀ stage, c.Stands stage → (c.cntrMask ≠ 0 → c.Allocated) ∧
      stage.Ready c.cntrMask := by
    intro stage hstage
    obtain ⟨-, -, rfl⟩ : c.Allocated ∧ c.AtCounter ∧ stage = .record c.cntrMask c.cntrAddress
        c.left := by
      simpa only [Stands, hstate] using hstage
    exact ⟨fun _ => halloc, .record _ _⟩
  obtain ⟨counts, val, hlow, hcounts⟩ := emitCount_eq hcounter halloc (c.savedLow32.setWidth 64)
  obtain ⟨counts', val', hwide, hcounts'⟩ := emitCount_eq hcounter halloc (wide data c.savedLow32)
  unfold gotCount
  rw [hlow, hwide]
  dsimp only
  split_ifs with hzero hpending hlast htwo hnone hlast' hthree hpending'
  · -- the low half of another counter, but there is none
    refine ⟨by simp, fun _ => .inr (.inl rfl), cntr_writes hstate val fun _ _ => ?_⟩
    exact ⟨fun _ => hcounts, .record _ _⟩
  · refine ⟨by simp, by simp, cntr_writes hstate val fun _ _ => ?_⟩
    obtain ⟨hle, -⟩ | ⟨-, hbit, hrest⟩ := hcounter.nextCounter
    · exact absurd hle hlast
    · rw [← hrest]
      simp only [Stands, hstate]
      exact ⟨hcounts, hbit, rfl⟩
  · exact ⟨by simp, by simp, writes_nil fun _ => stands_save⟩
  · exact ⟨by simp, by simp, writes_nil fun _ _ => trivial⟩
  · refine ⟨by simp, by simp, cntr_writes hstate val' fun _ _ => ?_⟩
    exact ⟨fun _ => hcounts', .record _ _⟩
  · refine ⟨by simp, by simp, cntr_writes hstate val' fun _ _ => ?_⟩
    obtain ⟨hle, -⟩ | ⟨-, hbit, hrest⟩ := hcounter.nextCounter
    · exact absurd hle hlast'
    · rw [← hrest]
      simp only [Stands, hstate]
      exact ⟨hcounts', hbit, rfl⟩
  · -- the type of the next record comes while a count is pending
    refine ⟨by simp, fun _ => .inr (.inl rfl), cntr_writes hstate val fun _ _ => ?_⟩
    exact ⟨fun _ => hcounts, .record _ _⟩
  · exact ⟨by simp, fun _ => .inr (.inl rfl), writes_nil hready⟩
  · exact ⟨by simp, fun _ => .inr (.inr rfl), writes_nil fun _ _ => trivial⟩

/-- **One pass**, in any state that stands somewhere. -/
theorem onePass_passes {stage : PerfStage} (hstands : c.Stands stage) :
    c.Passes (c.onePass markerValue size data) := by
  cases hstate : c.state with
  | sync =>
    have hstart : ∀ stage, c.Stands stage → stage = .started ∨ stage = .typed := by
      intro stage hstage
      simpa only [Stands, hstate] using hstage
    simp only [onePass, hstate]
    split_ifs
    · exact ⟨by simp, by simp, writes_nil hstart⟩
    · exact ⟨by simp, by simp, .refl c⟩
  | getCntType =>
    have hstart : ∀ stage, c.Stands stage → stage = .started ∨ stage = .typed := by
      intro stage hstage
      simpa only [Stands, hstate] using hstage
    have hresync : c.Passes (.again, { c with state := .sync }, []) :=
      ⟨by simp, fun _ => .inl rfl, writes_nil hstart⟩
    simp only [onePass, hstate]
    split_ifs
    · cases PerfCount.ofData data with
      | none => exact hresync
      | some cntType =>
        refine ⟨by simp, by simp, fun stage hstage => ⟨.typed, .single ?_, rfl⟩⟩
        obtain rfl | rfl := hstart stage hstage
        · exact .first cntType
        · exact .again cntType
    · exact hresync
  | getCntrMask =>
    have htyped : ∀ stage, c.Stands stage → stage = .typed := by
      intro stage hstage
      simpa only [Stands, hstate] using hstage
    simp only [onePass, hstate]
    by_cases hsize : size = 0
    · by_cases hzero : data = 0
      · rw [if_pos hsize, if_pos hzero]
        refine ⟨by simp, by simp, fun stage hstage => ?_⟩
        obtain rfl := htyped stage hstage
        refine ⟨_, .single (.cntrMask data), fun hne => absurd hzero hne, ?_⟩
        rw [bitsFrom_eq_nil.mpr hzero]
        exact .defined
      · rw [if_pos hsize, if_neg hzero]
        refine ⟨by simp, by simp, fun stage hstage => ?_⟩
        obtain rfl := htyped stage hstage
        obtain ⟨hbit, hsame⟩ := firstCounter_spec hzero
        refine ⟨_, .single (.cntrMask data), ?_, hbit, ?_⟩
        · intro hxor
          have hsome : (if c.cntType = .deltaXOR then some (c.lastCount.getD fun _ => 0)
              else c.lastCount) = some (c.lastCount.getD fun _ => 0) := if_pos hxor
          dsimp only
          rw [hsome]
          exact Option.some_ne_none _
        · rw [← hsame]
          rfl
    · rw [if_neg hsize]
      exact ⟨by simp, fun _ => .inl rfl, writes_nil fun stage hstage =>
        Or.inr (htyped stage hstage)⟩
  | getCntrDef =>
    have hdefining : ∀ stage, c.Stands stage → c.Allocated ∧ c.AtCounter ∧
        stage = .defining c.cntrMask c.left := by
      intro stage hstage
      simpa only [Stands, hstate] using hstage
    simp only [onePass, hstate]
    split_ifs
    · exact ⟨by simp, by simp, writes_nil hdefining⟩
    · exact ⟨by simp, by simp, writes_nil hdefining⟩
    · exact ⟨by simp, by simp, writes_nil fun _ _ => trivial⟩
  | getCntrCode =>
    have hdefining : ∀ stage, c.Stands stage → c.Allocated ∧ c.AtCounter ∧
        stage = .defining c.cntrMask c.left := by
      intro stage hstage
      simpa only [Stands, hstate] using hstage
    simp only [onePass, hstate]
    exact ⟨by simp, by simp, writes_nil hdefining⟩
  | getCntrEventData =>
    have hdefining : ∀ stage, c.Stands stage → c.Allocated ∧ c.AtCounter ∧
        stage = .defining c.cntrMask c.left := by
      intro stage hstage
      simpa only [Stands, hstate] using hstage
    simp only [onePass, hstate]
    split_ifs
    · exact ⟨by simp, by simp, writes_nil hdefining⟩
    · refine ⟨by simp, by simp, writes_nil fun _ hstage => ?_⟩
      rw [← hstate]
      exact stands_save hstage
  | getCntrInfo =>
    have hdefining : ∀ stage, c.Stands stage → c.Allocated ∧ c.AtCounter ∧
        stage = .defining c.cntrMask c.left := by
      intro stage hstage
      simpa only [Stands, hstate] using hstage
    obtain ⟨halloc, hcounter, -⟩ := hdefining stage hstands
    simp only [onePass, hstate]
    rw [if_neg (Nat.not_le.mpr hcounter.lt)]
    refine ⟨by simp, by simp, fun stage hstage => ?_⟩
    obtain ⟨-, -, rfl⟩ := hdefining stage hstage
    rw [hcounter.left_eq]
    refine ⟨_, .single (.cntrDef _ _ _ _ _ _ _), ?_⟩
    obtain ⟨hle, hnil⟩ | ⟨hlt, hbit, hrest⟩ := hcounter.nextCounter
    · rw [if_pos hle, hnil]
      exact ⟨fun _ => halloc, .defined⟩
    · rw [if_neg (Nat.not_le.mpr hlt), ← hrest]
      exact ⟨halloc, hbit, rfl⟩
  | getCntrRecord =>
    have hready : ∀ stage, c.Stands stage → (c.cntrMask ≠ 0 → c.Allocated) ∧
        stage.Ready c.cntrMask := by
      intro stage hstage
      simpa only [Stands, hstate] using hstage
    simp only [onePass, hstate]
    split_ifs
    · exact ⟨by simp, by simp, writes_nil hready⟩
    · exact ⟨by simp, by simp, writes_nil fun _ _ => trivial⟩
  | getAddr =>
    simp only [onePass, hstate]
    exact gotHalf_passes (gotAddress_writes hstate)
  | getCallSite =>
    simp only [onePass, hstate]
    exact gotHalf_passes (gotCallSite_writes hstate)
  | getCnts =>
    obtain ⟨halloc, hcounter, -⟩ : c.Allocated ∧ c.AtCounter ∧
        stage = .record c.cntrMask c.cntrAddress c.left := by
      simpa only [Stands, hstate] using hstands
    simp only [onePass, hstate]
    exact gotCount_passes hstate halloc hcounter
  | error =>
    simp only [onePass, hstate]
    exact ⟨by simp, by simp, .refl c⟩

/-! ### A call -/

theorem onePass_ends (markerValue size data : BitVec 32)
    (h : c.state = .sync ∨ c.state = .getCntrRecord ∨ c.state = .error) :
    (c.onePass markerValue size data).1 = .consumed ∨ (c.onePass markerValue size data).1 =
      .failed := by
  rcases h with hstate | hstate | hstate <;> simp only [onePass, hstate]
  · split_ifs <;> simp
  · split_ifs <;> simp
  · simp

theorem passes_writes (markerValue size data : BitVec 32) {stage : PerfStage}
    (hstands : c.Stands stage) :
    (∃ rc consumed, (c.passes markerValue size data 2).1 = .returned rc consumed) ∧
      Writes Next Stands c (c.passes markerValue size data 2).2.2
        (c.passes markerValue size data 2).2.1 := by
  have hfirst : c.Passes (c.onePass markerValue size data) := onePass_passes hstands
  rw [passes]
  rcases hpass : c.onePass markerValue size data with ⟨pass, c', es⟩
  rw [hpass] at hfirst
  cases pass with
  | consumed => exact ⟨⟨_, _, rfl⟩, hfirst.writes⟩
  | failed => exact ⟨⟨_, _, rfl⟩, hfirst.writes⟩
  | fault => exact absurd rfl hfirst.pass
  | again =>
    obtain ⟨stage', -, hstands'⟩ := hfirst.writes stage hstands
    have hsecond : c'.Passes (c'.onePass markerValue size data) := onePass_passes hstands'
    have hends := onePass_ends markerValue size data (hfirst.again rfl)
    dsimp only
    rw [passes]
    rcases hpass' : c'.onePass markerValue size data with ⟨pass', c'', es'⟩
    rw [hpass'] at hsecond hends
    have hwrites := hfirst.writes.append hsecond.writes
    obtain rfl | rfl : pass' = .consumed ∨ pass' = .failed := hends
    · exact ⟨⟨_, _, rfl⟩, hwrites⟩
    · exact ⟨⟨_, _, rfl⟩, hwrites⟩

def construct (memory : PerfCore) : PerfCore :=
  { memory with
    state := .sync
    cntrMaskIndex := 0
    cntrMask := 0
    valuePending := false
    cntrCode := 0
    cntrEventData := 0
    lastCount := none }

theorem constructed_construct (memory : PerfCore) : memory.construct.Constructed :=
  ⟨rfl, rfl, rfl, rfl, rfl, rfl, rfl⟩

theorem Constructed.stands (h : c.Constructed) : c.Stands .started := by
  simp [Stands, h.state]

end PerfCore

/-! ### All calls -/

def PerfStage.Explained (es : List PerfEvent) : PerfStage → Prop
  | .started | .typed => True
  | .defining mask is => .cntrMask mask ∈ es ∧ (∀ i ∈ is, mask.getLsbD i = true) ∧
      ∀ i, mask.getLsbD i = true → i ∈ is ∨ ∃ type code eventData info,
        .cntrDef i type code eventData info ∈ es
  | .record mask pc is => .cntrMask mask ∈ es ∧ (∀ i ∈ is, mask.getLsbD i = true) ∧
      (∀ i, mask.getLsbD i = true → ∃ type code eventData info, .cntrDef i type code eventData
        info ∈ es) ∧
      ∃ e ∈ es, e.pc? = some pc

theorem PerfStage.Explained.next {es : List PerfEvent} {stage stage' : PerfStage} {e : PerfEvent}
    (h : stage.Explained es) (hnext : stage.Next e stage') : stage'.Explained (es ++ [e]) := by
  have hmem : ∀ e', e' ∈ es → e' ∈ es ++ [e] := fun e' => List.mem_append_left [e]
  have hlast : e ∈ es ++ [e] := by simp
  cases hnext with
  | first => trivial
  | again => trivial
  | cntrMask mask =>
    exact ⟨hlast, fun i hi => (mem_bitsFrom.mp hi).2, fun i hi =>
      .inl (mem_bitsFrom.mpr ⟨Nat.zero_le i, hi⟩)⟩
  | cntrDef mask i is type code eventData info =>
    obtain ⟨hmask, hbits, hdefined⟩ := h
    refine ⟨hmem _ hmask, fun j hj => hbits j (List.mem_cons_of_mem i hj), fun j hj => ?_⟩
    obtain hj | ⟨type', code', eventData', info', hj⟩ := hdefined j hj
    · obtain rfl | hj := List.mem_cons.mp hj
      · exact .inr ⟨type, code, eventData, info, hlast⟩
      · exact .inl hj
    · exact .inr ⟨type', code', eventData', info', hmem _ hj⟩
  | head hready hhead =>
    have hbits : ∀ mask : BitVec 32, ∀ i ∈ bitsFrom mask 0, mask.getLsbD i = true :=
      fun mask i hi => (mem_bitsFrom.mp hi).2
    cases hready with
    | defined =>
      obtain ⟨hmask, -, hdefined⟩ := h
      refine ⟨hmem _ hmask, hbits _, fun i hi => ?_, e, hlast, hhead⟩
      obtain hi | ⟨type, code, eventData, info, hi⟩ := hdefined i hi
      · cases hi
      · exact ⟨type, code, eventData, info, hmem _ hi⟩
    | record pc is =>
      obtain ⟨hmask, -, hdefined, -⟩ := h
      refine ⟨hmem _ hmask, hbits _, fun i hi => ?_, e, hlast, hhead⟩
      obtain ⟨type, code, eventData, info, hi⟩ := hdefined i hi
      exact ⟨type, code, eventData, info, hmem _ hi⟩
  | cntr mask pc i is val =>
    obtain ⟨hmask, hbits, hdefined, e', he', hpc⟩ := h
    refine ⟨hmem _ hmask, fun j hj => hbits j (List.mem_cons_of_mem i hj), fun j hj => ?_, e',
      hmem _ he', hpc⟩
    obtain ⟨type, code, eventData, info, hj⟩ := hdefined j hj
    exact ⟨type, code, eventData, info, hmem _ hj⟩

/-- The value of a counter comes behind its mask, its definition and the head of its record. -/
theorem PerfStage.cntr_explained {before after : List PerfEvent} {pc : ADDRESS} {i : ℕ}
    {val : BitVec 64} {stage : PerfStage}
    (h : Run Next .started (before ++ .cntr pc i val :: after) stage) :
    ∃ mask, .cntrMask mask ∈ before ∧ mask.getLsbD i = true ∧
      (∃ type code eventData info, .cntrDef i type code eventData info ∈ before) ∧ ∃ e ∈ before,
        e.pc? = some pc := by
  obtain ⟨stage', hbefore, hafter⟩ := h.split
  have hexplained : stage'.Explained ([] ++ before) := by
    apply hbefore.invariant (P := fun es stage => stage.Explained es)
      (fun es stage e stage' h hnext => h.next hnext)
    trivial
  rw [List.nil_append] at hexplained
  cases hafter with
  | cons hnext hrest =>
    cases hnext with
    | head hready hhead => cases hhead
    | cntr mask pc i is val =>
      obtain ⟨hmask, hbits, hdefined, hpc⟩ := hexplained
      have hbit : mask.getLsbD i = true := hbits i List.mem_cons_self
      exact ⟨mask, hmask, hbit, hdefined i hbit, hpc⟩

namespace PerfConverter

def construct (perfChannel markerValue : BitVec 32) (memory : ℕ → PerfCore) : PerfConverter :=
  ⟨perfChannel, markerValue, fun coreId => (memory coreId).construct⟩

/-- The calls for a sequence of writes, each with its core, whatever they return. -/
def calls : PerfConverter → List (ℕ × PerfReceived) → List PerfResult × PerfConverter ×
    List PerfEmitted
  | p, [] => ([], p, [])
  | p, (coreId, m) :: ms =>
    let (result, p, es) := p.processITCPerf coreId m.ts m.addr m.data
    let (results, p, es') := p.calls ms
    (result :: results, p, es ++ es')

def eventsOf (coreId : ℕ) (es : List PerfEmitted) : List PerfEvent :=
  outputOf coreId (es.map fun e => (e.core, e.event))

variable {p : PerfConverter}

theorem processITCPerf_writes (hp : ∀ coreId, ∃ stage, (p.cores coreId).Stands stage) (coreId : ℕ)
    (ts : TIMESTAMP)
    (addr data : BitVec 32) : (∃ rc consumed, (p.processITCPerf coreId ts addr data).1 =
      .returned rc consumed) ∧
      WritesAll Next PerfCore.Stands p.cores ((p.processITCPerf coreId ts addr data).2.2.map
          fun e => (e.core, e.event))
        (p.processITCPerf coreId ts addr data).2.1.cores := by
  unfold processITCPerf
  split_ifs
  · exact ⟨⟨_, _, rfl⟩, .refl p.cores⟩
  · obtain ⟨stage, hstage⟩ := hp coreId
    have hpasses := PerfCore.passes_writes p.markerValue (addr &&& 3) data hstage
    rcases hr : (p.cores coreId).passes p.markerValue (addr &&& 3) data 2 with ⟨result, c, es⟩
    rw [hr] at hpasses
    refine ⟨hpasses.1, ?_⟩
    dsimp only
    rw [List.map_map]
    exact .turn hpasses.2

theorem calls_writes (hp : ∀ coreId, ∃ stage, (p.cores coreId).Stands stage)
    (ms : List (ℕ × PerfReceived)) :
    (∀ r ∈ (p.calls ms).1, ∃ rc consumed, r = .returned rc consumed) ∧
      WritesAll Next PerfCore.Stands p.cores ((p.calls ms).2.2.map fun e => (e.core, e.event))
        (p.calls ms).2.1.cores := by
  induction ms generalizing p with
  | nil => exact ⟨List.forall_mem_nil _, .refl p.cores⟩
  | cons m ms ih =>
    obtain ⟨coreId, m⟩ := m
    obtain ⟨hreturns, hwrites⟩ := processITCPerf_writes hp coreId m.ts m.addr m.data
    have hnext : ∀ i, ∃ stage, ((p.processITCPerf coreId m.ts m.addr m.data).2.1.cores i).Stands
        stage := by
      intro i
      obtain ⟨stage, hstage⟩ := hp i
      obtain ⟨stage', -, hstage'⟩ := hwrites i stage hstage
      exact ⟨stage', hstage'⟩
    obtain ⟨hreturns', hwrites'⟩ := ih hnext
    rw [calls]
    refine ⟨List.forall_mem_cons.mpr ⟨hreturns, hreturns'⟩, ?_⟩
    rw [List.map_append]
    exact hwrites.append hwrites'

theorem processITCPerf_cores_of_ne (p : PerfConverter) {coreId other : ℕ} (hne : other ≠ coreId)
    (ts : TIMESTAMP) (addr data : BitVec 32) :
    (p.processITCPerf coreId ts addr data).2.1.cores other = p.cores other := by
  unfold processITCPerf
  split_ifs
  · rfl
  · exact Function.update_of_ne hne _ _

theorem calls_cores_of_ne {ms : List (ℕ × PerfReceived)} {other : ℕ}
    (hne : ∀ m ∈ ms, other ≠ m.1) : (p.calls ms).2.1.cores other = p.cores other := by
  induction ms generalizing p with
  | nil => rfl
  | cons m ms ih =>
    obtain ⟨coreId, m⟩ := m
    obtain ⟨hfirst, hrest⟩ := List.forall_mem_cons.mp hne
    rw [calls]
    exact (ih hrest).trans (processITCPerf_cores_of_ne p hfirst m.ts m.addr m.data)

/-- **Any writes, on any of the cores.** Every call returns and uses no counter that is not there
and no entry behind the arrays of the members; the output of each core follows the grammar, and
every value of a counter in it comes behind the mask with the counter, the definition of the counter
and the head of a record with its address. -/
theorem processITCPerf_robust (perfChannel markerValue : BitVec 32) (memory : ℕ → PerfCore)
    {ms : List (ℕ × PerfReceived)} (hms : ∀ m ∈ ms, m.1 < DQR_MAXCORES) :
    let (results, p, es) := (construct perfChannel markerValue memory).calls ms
    (∀ r ∈ results, ∃ rc consumed, r = .returned rc consumed) ∧
      (∀ coreId, DQR_MAXCORES ≤ coreId → p.cores coreId = (memory coreId).construct) ∧
      ∀ coreId, (∃ stage, Run Next .started (eventsOf coreId es) stage) ∧
        ∀ before pc i val after, eventsOf coreId es = before ++ .cntr pc i val :: after →
          ∃ mask, .cntrMask mask ∈ before ∧ mask.getLsbD i = true ∧
            (∃ type code eventData info, .cntrDef i type code eventData info ∈ before) ∧
            ∃ e ∈ before, e.pc? = some pc := by
  have hstands : ∀ coreId, ((construct perfChannel markerValue memory).cores coreId).Stands
      .started :=
    fun coreId => (PerfCore.constructed_construct (memory coreId)).stands
  obtain ⟨hreturns, hwrites⟩ := calls_writes (fun coreId => ⟨.started, hstands coreId⟩) ms
  refine ⟨hreturns, fun coreId hcore => ?_, fun coreId => ?_⟩
  · have hne : ∀ m ∈ ms, coreId ≠ m.1 := fun m hm => (Nat.lt_of_lt_of_le (hms m hm) hcore).ne'
    exact calls_cores_of_ne hne
  · obtain ⟨stage, hrun, -⟩ := hwrites coreId .started (hstands coreId)
    refine ⟨⟨stage, hrun⟩, fun before pc i val after hsplit => ?_⟩
    have hsplitted : Run Next .started (before ++ .cntr pc i val :: after) stage := hsplit ▸ hrun
    exact PerfStage.cntr_explained hsplitted

/-- Core 3 is set up for raw counts of one counter and gives one record, and
core 7 a word out of place. -/
def setUpAndRecord : List (ℕ × PerfReceived) :=
  [(3, ⟨1, 24, 0x70657266⟩), (7, ⟨1, 27, 5⟩), (3, ⟨2, 27, 0⟩), (3, ⟨3, 24, 1⟩), (3, ⟨4, 24, 0⟩),
    (3, ⟨5, 24, 9⟩), (3, ⟨6, 24, 0⟩), (3, ⟨7, 27, 2⟩), (3, ⟨8, 24, 0x1000⟩), (3, ⟨9, 24, 5⟩),
    (3, ⟨10, 26, 1⟩)]

def usedMemory : ℕ → PerfCore := fun _ => ⟨.error, 7, 1, true, .delta, 2, 3, 4, 5, 6, 7, 8, none⟩

theorem processITCPerf_robust_setUp :
    let (results, p, es) := (construct 6 0x70657266 usedMemory).calls setUpAndRecord
    (∀ r ∈ results, ∃ rc consumed, r = .returned rc consumed) ∧
      (∀ coreId, DQR_MAXCORES ≤ coreId → p.cores coreId = (usedMemory coreId).construct) ∧
      ∀ coreId, (∃ stage, Run Next .started (eventsOf coreId es) stage) ∧
        ∀ before pc i val after, eventsOf coreId es = before ++ .cntr pc i val :: after →
          ∃ mask, .cntrMask mask ∈ before ∧ mask.getLsbD i = true ∧
            (∃ type code eventData info, .cntrDef i type code eventData info ∈ before) ∧
            ∃ e ∈ before, e.pc? = some pc :=
  processITCPerf_robust 6 0x70657266 usedMemory (by decide : ∀ m ∈ setUpAndRecord, m.1 <
    DQR_MAXCORES)

end PerfConverter

end TraceDecoder
