import TraceDecoder.PerfReading

/-!
# Performance traces round trip

What a traced program writes is read back: the header with the counter definitions, and then a field
of a record after the other.
-/

namespace TraceDecoder

open SetBits PerfCore

namespace PerfTracer

variable (t : PerfTracer)

def sent (r : PerfRecord) (i : ℕ) (oldCntrVal : BitVec 64) : BitVec 64 :=
  let newCntrVal := r.newCntrVal i
  match t.perfCountType with
  | .raw => newCntrVal
  | .delta =>
    if oldCntrVal ≤ newCntrVal then newCntrVal - oldCntrVal else newCntrVal + t.cntrWrapVal
      i - oldCntrVal
  | .deltaXOR =>
    if oldCntrVal ≤ newCntrVal then newCntrVal ^^^ oldCntrVal
      else (newCntrVal + t.cntrWrapVal i) ^^^ oldCntrVal

def kept (r : PerfRecord) (prev : ℕ → BitVec 64) : ℕ → BitVec 64 :=
  if t.perfCountType = .raw then prev else fun i => if i ∈ bitsFrom t.perfCntrMask 0
    then r.newCntrVal i else prev i

def recordFields (r : PerfRecord) (prev : ℕ → BitVec 64) : List PerfField :=
  .head r.recType r.this_fn r.call_site :: (bitsFrom t.perfCntrMask 0).map fun i => .count i
    (t.sent r i (prev i))

def fields : (ℕ → BitVec 64) → List PerfRecord → List PerfField
  | _, [] => []
  | prev, r :: rs => t.recordFields r prev ++ fields (t.kept r prev) rs

/-- A function that sends something of the old and the new value of a
counter and keeps the new one. -/
theorem write_trace_record_update {count : PerfRecord → ℕ → (ℕ → BitVec 64) → BitVec 64 ×
      (ℕ → BitVec 64)} {r : PerfRecord}
    (sent : ℕ → BitVec 64 → BitVec 64)
    (hcount : ∀ i prev, count r i prev = (sent i (prev i), Function.update prev i (r.newCntrVal i)))
    (prev : ℕ → BitVec 64) :
    t.write_trace_record count (some prev) r =
      (headWrites r ++ (bitsFrom t.perfCntrMask 0).flatMap (fun i => countWrites (sent i (prev i))),
        some fun i => if i ∈ bitsFrom t.perfCntrMask 0 then r.newCntrVal i else prev i) := by
  have hloop := forList_update (fun i old => countWrites (sent i old)) (fun i _ => r.newCntrVal i)
    (nodup_bitsFrom t.perfCntrMask 0) prev
  simp only [write_trace_record, hcount, forBits_zero, hloop]

theorem write_trace_record_fn_eq {prevCntrVal : Option (ℕ → BitVec 64)}
    (hprev : prevCntrVal = none → t.perfCntrMask = 0) (r : PerfRecord) :
    t.write_trace_record_fn prevCntrVal r =
      ((t.recordFields r (prevCntrVal.getD fun _ => 0)).flatMap PerfField.writes, prevCntrVal.map
        (t.kept r)) := by
  have hhead : ∀ fs, (PerfField.head r.recType r.this_fn r.call_site :: fs).flatMap
      PerfField.writes = headWrites r ++ fs.flatMap PerfField.writes := fun _ => rfl
  have hcounts : ∀ s : ℕ → BitVec 64,
      (((bitsFrom t.perfCntrMask 0).map fun i => PerfField.count i (s i)).flatMap
        PerfField.writes) = (bitsFrom t.perfCntrMask 0).flatMap fun i => countWrites (s i) :=
        fun _ => List.flatMap_map ..
  cases prevCntrVal with
  | none =>
    have hnone : bitsFrom t.perfCntrMask 0 = [] := bitsFrom_eq_nil.mpr (hprev rfl)
    rw [recordFields, hhead, hnone, List.map_nil, List.flatMap_nil, List.append_nil,
      write_trace_record_fn]
    cases t.perfCountType <;> rfl
  | some prev =>
    have hkept : t.perfCountType ≠ .raw →
        t.kept r prev = fun i => if i ∈ bitsFrom t.perfCntrMask 0 then r.newCntrVal i else prev i :=
          fun h => if_neg h
    rw [recordFields, hhead, hcounts, Option.map_some, Option.getD_some]
    cases htype : t.perfCountType with
    | raw =>
      have hloop :=
        forList_const (fun i => countWrites (r.newCntrVal i)) (bitsFrom t.perfCntrMask 0) prev
      simp only [write_trace_record_fn, htype, write_trace_record_raw, write_trace_record,
        forBits_zero, hloop, sent, kept, if_true]
    | delta =>
      simp only [write_trace_record_fn, htype]
      rw [write_trace_record_delta, hkept (by rw [htype]; decide)]
      refine t.write_trace_record_update (t.sent r) (fun i prev => ?_) prev
      simp only [sent, htype]
    | deltaXOR =>
      simp only [write_trace_record_fn, htype]
      rw [write_trace_record_deltaXOR, hkept (by rw [htype]; decide)]
      refine t.write_trace_record_update (t.sent r) (fun i prev => ?_) prev
      simp only [sent, htype]

theorem records_eq {prevCntrVal : Option (ℕ → BitVec 64)}
    (hprev : prevCntrVal = none → t.perfCntrMask = 0) (rs : List PerfRecord) :
    t.records prevCntrVal rs = (t.fields (prevCntrVal.getD fun _ => 0) rs).flatMap
      PerfField.writes := by
  induction rs generalizing prevCntrVal with
  | nil => rfl
  | cons r rs ih =>
    have hnext : prevCntrVal.map (t.kept r) = none → t.perfCntrMask = 0 :=
      fun h => hprev (Option.map_eq_none_iff.mp h)
    rw [records, t.write_trace_record_fn_eq hprev, fields, List.flatMap_append]
    simp only [ih hnext]
    cases prevCntrVal with
    | some prev => rfl
    | none =>
      have hnone : bitsFrom t.perfCntrMask 0 = [] := bitsFrom_eq_nil.mpr (hprev rfl)
      have hkept : (t.kept r fun _ => 0) = fun _ => 0 := by
        rw [kept, hnone]
        split_ifs
        · rfl
        · exact funext fun i => if_neg List.not_mem_nil
      rw [Option.getD_none, hkept]
      rfl

/-- The addresses are even; the call site is looked at for function entry and exit. -/
def Even (rs : List PerfRecord) : Prop :=
  ∀ r ∈ rs, r.this_fn.getLsbD 0 = false ∧ (r.recType.IsCall → r.call_site.getLsbD 0 = false)

theorem follows_counts {mask : BitVec 32} {fs : List PerfField} (h : PerfField.Follows mask [] fs)
    (is : List ℕ)
    (s : ℕ → BitVec 64) : PerfField.Follows mask is ((is.map fun i => .count i (s i)) ++ fs) := by
  induction is with
  | nil => exact h
  | cons i is ih => exact .count ih

theorem follows_fields {rs : List PerfRecord} (heven : Even rs) (prev : ℕ → BitVec 64) :
    PerfField.Follows t.perfCntrMask [] (t.fields prev rs) := by
  induction rs generalizing prev with
  | nil => exact .nil
  | cons r rs ih =>
    obtain ⟨hr, hrs⟩ := List.forall_mem_cons.mp heven
    exact .head hr.1 hr.2 (follows_counts (ih hrs _) _ _)

/-! ### The header -/

def counterInfo (i : ℕ) : BitVec 32 :=
  if (t.perfCntrLst i).type = 2 ∧ i = 1 then ((t.masterTsControl >>> 24) - 1) <<< 12
    else low32 (t.perfCntrLst i).ctrInfo

/-- The event of a counter definition: the types 0 and 1 have a code, type 2 has event data. -/
def counterEvent (i : ℕ) : PerfEvent :=
  let c := t.perfCntrLst i
  if c.type = 2 then .cntrDef i c.type 0 c.event_data (t.counterInfo i)
  else .cntrDef i c.type c.code 0 (t.counterInfo i)

def markerEvents : List PerfEvent :=
  .cntType t.perfCountType :: .cntrMask t.perfCntrMask :: (bitsFrom t.perfCntrMask 0).map
    t.counterEvent

def CountersDefined : Prop :=
  ∀ i ∈ bitsFrom t.perfCntrMask 0, (t.perfCntrLst i).type = 0 ∨ (t.perfCntrLst i).type = 1 ∨
    (t.perfCntrLst i).type = 2

structure Defining (is : List ℕ) (c : PerfCore) : Prop where
  keeping : Keeping t.perfCountType t.perfCntrMask 0 (fun _ => 0) c
  valuePending : c.valuePending = false
  state : c.state = if 32 ≤ is.headD 32 then .getCntrRecord else .getCntrDef
  cntrMaskIndex : is ≠ [] → c.cntrMaskIndex = is.headD 32
  suffix : ∃ k, bitsFrom t.perfCntrMask k = is

variable {t} {markerValue : BitVec 32} {c : PerfCore}

theorem reads_info {i : ℕ} {is : List ℕ}
    (hkeeping : Keeping t.perfCountType t.perfCntrMask 0 (fun _ => 0) c)
    (hpending : c.valuePending = false) (hstate : c.state = .getCntrInfo)
    (hindex : c.cntrMaskIndex = i) {k : ℕ}
    (hk : bitsFrom t.perfCntrMask k = i :: is) (info : BitVec 32) :
    ∃ c', Reads markerValue c [.word info] [.cntrDef i c.cntrType c.cntrCode c.cntrEventData info]
      c' ∧
      t.Defining is c' := by
  have hmem : i ∈ bitsFrom t.perfCntrMask k := by rw [hk]; exact List.mem_cons_self
  have hbit := (mem_bitsFrom.mp hmem).2
  have hlt : ¬ 32 ≤ i := not_le.mpr (BitVec.lt_of_getLsbD hbit)
  have hnext : nextCounter c.cntrMask i = is.headD 32 := by
    rw [hkeeping.cntrMask, nextCounter_eq hbit, ← bitsFrom_tail hk]
  have hpass : c.onePass markerValue 0 info = (.consumed, { c with
      cntrMaskIndex := is.headD 32
      state := if 32 ≤ is.headD 32 then .getCntrRecord else .getCntrDef },
      [.cntrDef i c.cntrType c.cntrCode c.cntrEventData info]) := by
    rw [onePass, hstate]
    simp only [hindex, if_neg hlt, hnext]
  refine ⟨_, .of_pass hpass, ?_⟩
  exact ⟨⟨hkeeping.type, hkeeping.cntrMask, hkeeping.lastAddress, hkeeping.lastCount⟩, hpending,
    rfl, fun _ => rfl, i + 1, (bitsFrom_tail hk).symm⟩

theorem reads_counter {i : ℕ} {is : List ℕ} (h : t.Defining (i :: is) c)
    (htype : (t.perfCntrLst i).type = 0 ∨ (t.perfCntrLst i).type = 1 ∨ (t.perfCntrLst i).type = 2) :
    ∃ c', Reads markerValue c (t.counterWrites i) [t.counterEvent i] c' ∧ t.Defining is c' := by
  obtain ⟨k, hk⟩ := h.suffix
  have hmem : i ∈ bitsFrom t.perfCntrMask k := by rw [hk]; exact List.mem_cons_self
  have hlt : ¬ 32 ≤ i := not_le.mpr (BitVec.lt_of_getLsbD (mem_bitsFrom.mp hmem).2)
  have hindex : c.cntrMaskIndex = i := h.cntrMaskIndex (List.cons_ne_nil i is)
  have hstate : c.state = .getCntrDef := h.state.trans (if_neg hlt)
  by_cases htwo : (t.perfCntrLst i).type = 2
  · have hnot : ¬ ((t.perfCntrLst i).type = 0 ∨ (t.perfCntrLst i).type = 1) := by rw [htwo]; decide
    have hinfo : (if i = 1 then ((t.masterTsControl >>> 24) - 1) <<< 12
        else low32 (t.perfCntrLst i).ctrInfo) = t.counterInfo i := by
      simp only [counterInfo, htwo, true_and]
    have hwrites : t.counterWrites i = [.word (t.perfCntrLst i).type] ++
        [.word (low32 (t.perfCntrLst i).event_data)] ++
          [.word (high32 (t.perfCntrLst i).event_data)] ++ [.word (t.counterInfo i)] := by
      rw [counterWrites, if_neg hnot, if_pos htwo, hinfo]
      rfl
    have hfirst : c.onePass markerValue 0 (t.perfCntrLst i).type = (.consumed, { c with
        cntrType := (t.perfCntrLst i).type, cntrCode := 0, state := .getCntrEventData }, []) := by
      rw [onePass, hstate]
      exact (if_neg hnot).trans (if_pos htwo)
    have hsecond : onePass
        { c with cntrType := (t.perfCntrLst i).type, cntrCode := 0, state := .getCntrEventData }
          markerValue 0 (low32 (t.perfCntrLst i).event_data) = (.consumed, { c with
        cntrType := (t.perfCntrLst i).type, cntrCode := 0, state := .getCntrEventData
        savedLow32 := low32 (t.perfCntrLst i).event_data, valuePending := true }, []) :=
      if_neg (Bool.eq_false_iff.mp h.valuePending)
    have hthird : onePass { c with
        cntrType := (t.perfCntrLst i).type, cntrCode := 0, state := .getCntrEventData
        savedLow32 := low32 (t.perfCntrLst i).event_data, valuePending := true }
        markerValue 0 (high32 (t.perfCntrLst i).event_data) = (.consumed, { c with
        cntrType := (t.perfCntrLst i).type, cntrCode := 0, state := .getCntrInfo
        cntrEventData := (t.perfCntrLst i).event_data
        savedLow32 := low32 (t.perfCntrLst i).event_data, valuePending := false }, []) := by
      simp only [onePass, if_true, wide_halves]
    have hkeeping : Keeping t.perfCountType t.perfCntrMask 0 (fun _ => 0) { c with
        cntrType := (t.perfCntrLst i).type, cntrCode := 0, state := .getCntrInfo
        cntrEventData := (t.perfCntrLst i).event_data
        savedLow32 := low32 (t.perfCntrLst i).event_data, valuePending := false } :=
      ⟨h.keeping.type, h.keeping.cntrMask, h.keeping.lastAddress, h.keeping.lastCount⟩
    obtain ⟨c', hreads, hdefining⟩ := reads_info hkeeping rfl rfl hindex hk (t.counterInfo i)
    have hevent : t.counterEvent i = .cntrDef i (t.perfCntrLst i).type 0
        (t.perfCntrLst i).event_data (t.counterInfo i) :=
      if_pos htwo
    rw [hwrites, hevent]
    exact ⟨c', (((Reads.of_pass hfirst).append (.of_pass hsecond)).append (.of_pass hthird)).append
      hreads, hdefining⟩
  · have hcode : (t.perfCntrLst i).type = 0 ∨ (t.perfCntrLst i).type = 1 := by tauto
    have hinfo : low32 (t.perfCntrLst i).ctrInfo = t.counterInfo i := by
      simp only [counterInfo, htwo, false_and, if_false]
    have hwrites : t.counterWrites i = [.word (t.perfCntrLst i).type] ++
        [.word (t.perfCntrLst i).code] ++ [.word (t.counterInfo i)] := by
      rw [counterWrites, if_pos hcode, hinfo]
      rfl
    have hfirst : c.onePass markerValue 0 (t.perfCntrLst i).type = (.consumed, { c with
        cntrType := (t.perfCntrLst i).type, cntrEventData := 0, state := .getCntrCode }, []) := by
      rw [onePass, hstate]
      exact if_pos hcode
    have hsecond : onePass
        { c with cntrType := (t.perfCntrLst i).type, cntrEventData := 0, state := .getCntrCode }
          markerValue 0 (t.perfCntrLst i).code = (.consumed, { c with
        cntrType := (t.perfCntrLst i).type, cntrEventData := 0, cntrCode := (t.perfCntrLst i).code
        state := .getCntrInfo }, []) := rfl
    have hkeeping : Keeping t.perfCountType t.perfCntrMask 0 (fun _ => 0) { c with
        cntrType := (t.perfCntrLst i).type, cntrEventData := 0, cntrCode := (t.perfCntrLst i).code
        state := .getCntrInfo } :=
      ⟨h.keeping.type, h.keeping.cntrMask, h.keeping.lastAddress, h.keeping.lastCount⟩
    obtain ⟨c', hreads, hdefining⟩ :=
      reads_info hkeeping h.valuePending rfl hindex hk (t.counterInfo i)
    have hevent : t.counterEvent i = .cntrDef i (t.perfCntrLst i).type (t.perfCntrLst i).code 0
        (t.counterInfo i) :=
      if_neg htwo
    rw [hwrites, hevent]
    exact ⟨c', ((Reads.of_pass hfirst).append (.of_pass hsecond)).append hreads, hdefining⟩

theorem reads_counters {is : List ℕ} (h : t.Defining is c)
    (htypes : ∀ i ∈ is, (t.perfCntrLst i).type = 0 ∨ (t.perfCntrLst i).type = 1 ∨
      (t.perfCntrLst i).type = 2) :
    ∃ c', Reads markerValue c (is.flatMap t.counterWrites) (is.map t.counterEvent) c' ∧
      t.Defining [] c' := by
  induction is generalizing c with
  | nil => exact ⟨c, .nil, h⟩
  | cons i is ih =>
    obtain ⟨htype, htypes⟩ := List.forall_mem_cons.mp htypes
    obtain ⟨c₁, hreads, hdefining⟩ := reads_counter h htype
    obtain ⟨c₂, hreads', hdefining'⟩ := ih hdefining htypes
    exact ⟨c₂, hreads.append hreads', hdefining'⟩

theorem reads_mask (hstate : c.state = .getCntrMask) (htype : c.cntType = t.perfCountType)
    (haddr : c.lastAddress = 0) (hpending : c.valuePending = false) (hcount : c.lastCount = none) :
    ∃ c', Reads markerValue c [.word t.perfCntrMask] [.cntrMask t.perfCntrMask] c' ∧
      t.Defining (bitsFrom t.perfCntrMask 0) c' := by
  by_cases hmask : t.perfCntrMask = 0
  · have hpass : c.onePass markerValue 0 t.perfCntrMask = (.consumed, { c with
        cntrMask := t.perfCntrMask, state := .getCntrRecord }, [.cntrMask t.perfCntrMask]) := by
      rw [onePass, hstate]
      exact if_pos hmask
    have hnone : bitsFrom t.perfCntrMask 0 = [] := bitsFrom_eq_nil.mpr hmask
    refine ⟨_, .of_pass hpass, ⟨htype, rfl, haddr, fun _ h => absurd hmask h⟩, hpending, ?_,
      fun h => absurd hnone h, 0, rfl⟩
    rw [hnone]
    rfl
  · have hpass : c.onePass markerValue 0 t.perfCntrMask = (.consumed, { c with
        cntrMask := t.perfCntrMask
        lastCount :=
          if c.cntType = .deltaXOR then some (c.lastCount.getD fun _ => 0) else c.lastCount
        cntrMaskIndex := firstCounter t.perfCntrMask
        state := .getCntrDef }, [.cntrMask t.perfCntrMask]) := by
      rw [onePass, hstate]
      exact if_neg hmask
    obtain ⟨i, is, his⟩ := List.exists_cons_of_ne_nil (mt bitsFrom_eq_nil.mp hmask)
    have hmem : i ∈ bitsFrom t.perfCntrMask 0 := by rw [his]; exact List.mem_cons_self
    have hlt : ¬ 32 ≤ i := not_le.mpr (BitVec.lt_of_getLsbD (mem_bitsFrom.mp hmem).2)
    refine ⟨_, .of_pass hpass, ⟨htype, rfl, haddr, fun hxor _ => ?_⟩, hpending, ?_, fun _ =>
      firstCounter_eq _, 0, rfl⟩
    · simp only [htype, hxor, if_true, hcount, Option.getD_none]
    · rw [his, List.headD_cons, if_neg hlt]

/-- **The header** is read from the start. -/
theorem reads_marker (hc : c.Constructed) (hdefined : t.CountersDefined) :
    ∃ c', Reads t.perfMarkerVal c t.perfEmitMarker t.markerEvents c' ∧
      Between t.perfCountType t.perfCntrMask ⟨0, 0, fun _ => 0⟩ [] none c' := by
  have hwrites : t.perfEmitMarker = [.word t.perfMarkerVal] ++
      [.byte (t.perfCountType.code.setWidth 8)] ++ [.word t.perfCntrMask] ++
        (bitsFrom t.perfCntrMask 0).flatMap t.counterWrites := by
    rw [perfEmitMarker, forBits_zero, forList_const]
    rfl
  have hfirst : c.onePass t.perfMarkerVal 0 t.perfMarkerVal = (.consumed, { c with
      lastAddress := 0, cntrAddress := 0, state := .getCntType }, []) := by
    rw [onePass, hc.state]
    exact if_pos rfl
  have htype : PerfCount.ofData ((t.perfCountType.code.setWidth 8).setWidth 32) =
      some t.perfCountType := by
    cases t.perfCountType <;> rfl
  have hsecond : onePass { c with lastAddress := 0, cntrAddress := 0, state := .getCntType }
      t.perfMarkerVal 3 ((t.perfCountType.code.setWidth 8).setWidth 32) = (.consumed, { c with
      lastAddress := 0, cntrAddress := 0, cntType := t.perfCountType, state := .getCntrMask },
      [.cntType t.perfCountType]) := by
    simp only [onePass, if_true, htype]
  obtain ⟨c₁, hmask, hdefining⟩ : ∃ c', Reads t.perfMarkerVal { c with
      lastAddress := 0, cntrAddress := 0, cntType := t.perfCountType, state := .getCntrMask }
      [.word t.perfCntrMask] [.cntrMask t.perfCntrMask] c' ∧
        t.Defining (bitsFrom t.perfCntrMask 0) c' :=
    reads_mask rfl rfl rfl hc.valuePending hc.lastCount
  obtain ⟨c₂, hcounters, hend⟩ := reads_counters hdefining hdefined
  have hstate : c₂.state = .getCntrRecord := hend.state
  refine ⟨c₂, ?_, .record hend.keeping hstate⟩
  rw [hwrites]
  exact (((Reads.of_pass hfirst).append (.of_pass hsecond)).append hmask).append hcounters

/-! ### Runs of the converter -/

def Shows (t : PerfTracer) (ws : List Write) (ms : List PerfReceived) : Prop :=
  List.Forall₂ (fun w m => m.addr = BitVec.ofNat 32 t.itcChannel * 4 + w.size ∧ m.data = w.data) ws
    ms

/-- The converter listens to the channel and to the marker of the program, and has
read nothing for the core. -/
structure Serves (t : PerfTracer) (p : PerfConverter) (coreId : ℕ) : Prop where
  perfChannel : p.perfChannel = BitVec.ofNat 32 t.itcChannel
  markerValue : p.markerValue = t.perfMarkerVal
  core : (p.cores coreId).Constructed

theorem channel_address (channel : Fin 32) {size : BitVec 32}
    (hsize : size = 0 ∨ size = 2 ∨ size = 3) :
    ¬ (BitVec.ofNat 32 channel * 4 + size < BitVec.ofNat 32 channel * 4 ∨
      (BitVec.ofNat 32 channel + 1) * 4 ≤ BitVec.ofNat 32 channel * 4 + size) ∧
      (BitVec.ofNat 32 channel * 4 + size) &&& 3 = size := by
  rcases hsize with rfl | rfl | rfl
  · revert channel; decide
  · revert channel; decide
  · revert channel; decide

def Sized (ws : List Write) : Prop := ∀ w ∈ ws, w.size = 0 ∨ w.size = 2 ∨ w.size = 3

theorem run_of_reads {p : PerfConverter} {coreId : ℕ} {ws : List Write} {es : List PerfEvent}
    {c c' : PerfCore}
    (hreads : Reads markerValue c ws es c') (hcore : p.cores coreId = c)
    (hmarker : p.markerValue = markerValue)
    (hchannel : p.perfChannel = BitVec.ofNat 32 t.itcChannel) (hsized : Sized ws)
    {ms : List PerfReceived} (hms : t.Shows ws ms) :
    ∃ p' emitted, p.run coreId ms = some (p', emitted) ∧ emitted.map (·.event) = es := by
  induction hreads generalizing p ms with
  | nil =>
    cases hms
    exact ⟨p, [], rfl, rfl⟩
  | @cons c c₁ c₂ w ws es es' hw _ ih =>
    cases hms with
    | @cons _ m _ ms hm hms =>
      obtain ⟨hwsize, hsized⟩ := List.forall_mem_cons.mp hsized
      obtain ⟨hin, hsize⟩ := channel_address t.itcChannel hwsize
      have hcall : p.processITCPerf coreId m.ts m.addr m.data = (.returned .ok true,
          { p with cores := Function.update p.cores coreId c₁ }, es.map (⟨coreId, m.ts, ·⟩)) := by
        rw [PerfConverter.processITCPerf, hm.1, hm.2, hchannel, if_neg hin, hsize, hcore, hmarker]
        simp only [hw]
      obtain ⟨p', emitted, hrun, hevents⟩ :=
        ih (p := { p with cores := Function.update p.cores coreId c₁ }) (Function.update_self ..)
          hmarker hchannel hsized hms
      refine ⟨p', es.map (⟨coreId, m.ts, ·⟩) ++ emitted, ?_, ?_⟩
      · rw [PerfConverter.run, hcall]
        simp only [hrun, Option.map_some]
      · rw [List.map_append, List.map_map, hevents]
        congr 1
        exact List.map_id _

theorem sized_words (ds : List (BitVec 32)) : Sized (ds.map Write.word) := by
  intro w hw
  obtain ⟨d, -, rfl⟩ := List.mem_map.mp hw
  exact .inl rfl

theorem sized_marker (t : PerfTracer) : Sized t.perfEmitMarker := by
  have hcounter : ∀ i, Sized (t.counterWrites i) := by
    intro i
    rw [counterWrites]
    by_cases hcode : (t.perfCntrLst i).type = 0 ∨ (t.perfCntrLst i).type = 1
    · rw [if_pos hcode]
      exact sized_words [_, _, _]
    · rw [if_neg hcode]
      by_cases htwo : (t.perfCntrLst i).type = 2
      · rw [if_pos htwo]
        exact sized_words [_, _, _, _]
      · rw [if_neg htwo]
        exact List.forall_mem_nil _
  rw [perfEmitMarker, forBits_zero, forList_const]
  refine List.forall_mem_cons.mpr ⟨.inl rfl, List.forall_mem_cons.mpr ⟨.inr (.inr rfl),
    List.forall_mem_cons.mpr ⟨.inl rfl, ?_⟩⟩⟩
  exact List.forall_mem_flatMap.mpr fun i _ => hcounter i

theorem sized_field (f : PerfField) : Sized f.writes := by
  have haddress : ∀ a, Sized (addressWrites a) := by
    intro a
    unfold addressWrites
    split_ifs
    · exact sized_words [_, _]
    · exact sized_words [_]
  cases f with
  | head recType fn site =>
    refine List.forall_mem_cons.mpr ⟨.inr (.inr rfl), List.forall_mem_append.mpr ⟨haddress fn, ?_⟩⟩
    split_ifs
    · exact haddress site
    · exact List.forall_mem_nil _
  | count i sent =>
    refine List.forall_mem_cons.mpr ⟨.inl rfl, ?_⟩
    split_ifs
    · exact List.forall_mem_singleton.mpr (.inr (.inl rfl))
    · exact List.forall_mem_nil _

/-- The writes of the header and of the first fields of records are read, and what is not yet
emitted is pending. -/
theorem run_fields {p : PerfConverter} {coreId : ℕ} (hserves : t.Serves p coreId)
    (hdefined : t.CountersDefined)
    {fs : List PerfField} (hfs : PerfField.Follows t.perfCntrMask [] fs) {ms : List PerfReceived}
    (hms : t.Shows (t.perfEmitMarker ++ fs.flatMap PerfField.writes) ms) :
    ∃ (p' : PerfConverter) (emitted : List PerfEmitted) (pending : Option PerfEvent),
      p.run coreId ms = some (p', emitted) ∧
      t.markerEvents ++ PerfField.events t.perfCountType ⟨0, 0, fun _ => 0⟩ fs = emitted.map
        (·.event) ++ pending.toList ∧
      (∀ e ∈ pending, ∃ pc index val, e = .cntr pc index val) ∧
      (pending = none ↔ lastWhole True fs) := by
  obtain ⟨c₁, hmarker, hbetween⟩ := reads_marker hserves.core hdefined
  obtain ⟨c₂, es, is, v, pending, hfields, hbetween', hevents, hwhole⟩ := reads_fields hfs hbetween
  have hsized : Sized (t.perfEmitMarker ++ fs.flatMap PerfField.writes) :=
    List.forall_mem_append.mpr ⟨sized_marker t, List.forall_mem_flatMap.mpr fun f _ =>
      sized_field f⟩
  obtain ⟨p', emitted, hrun, hemitted⟩ :=
    run_of_reads (hmarker.append hfields) rfl hserves.markerValue hserves.perfChannel hsized hms
  refine ⟨p', emitted, pending, hrun, ?_, fun e he => ?_, ?_⟩
  · rw [hemitted, List.append_assoc, ← hevents]
    rfl
  · rw [Option.mem_def] at he
    subst he
    exact hbetween'.cntr
  · rw [hwhole, eq_self]

end PerfTracer

/-! ### Raw and delta counts -/

namespace PerfRecord

def pc (r : PerfRecord) : ADDRESS := if r.recType = .funcExit then r.call_site else r.this_fn

def event (r : PerfRecord) : PerfEvent :=
  match r.recType with
  | .funcEnter => .fnEntry r.this_fn r.call_site
  | .funcExit => .fnExit r.this_fn r.call_site
  | .manual | .isr => .addr r.this_fn

end PerfRecord

namespace PerfTracer

variable (t : PerfTracer)

/-- The events of a sequence of records: of a count that is sent, the lowest 48 bits are shown. -/
def recordEvents : (ℕ → BitVec 64) → List PerfRecord → List PerfEvent
  | _, [] => []
  | prev, r :: rs =>
    r.event :: ((bitsFrom t.perfCntrMask 0).map fun i => .cntr r.pc i
      (low48 (t.sent r i (prev i)))) ++ recordEvents (t.kept r prev) rs

variable {t}

theorem events_counts {cntType : PerfCount} (htype : cntType ≠ .deltaXOR) (v : PerfView)
    (is : List ℕ) (s : ℕ → BitVec 64) :
    PerfField.events cntType v (is.map fun i => .count i (s i)) = is.map fun i => .cntr v.pc i
      (low48 (s i)) := by
  induction is generalizing v with
  | nil => rfl
  | cons i is ih =>
    rw [List.map_cons, PerfField.events, ih, List.map_cons, PerfField.event, shown, if_neg htype]
    rfl

theorem events_fields (htype : t.perfCountType ≠ .deltaXOR) (v : PerfView) (prev : ℕ → BitVec 64)
    (rs : List PerfRecord) :
    PerfField.events t.perfCountType v (t.fields prev rs) = t.recordEvents prev rs := by
  induction rs generalizing v prev with
  | nil => rfl
  | cons r rs ih =>
    have hshown : ∀ old value, shown t.perfCountType old value = value :=
      fun old value => if_neg htype
    have hevent : (PerfField.head r.recType r.this_fn r.call_site).event t.perfCountType v =
        r.event := by
      simp only [PerfField.event, hshown]
      rfl
    have hpc : ((PerfField.head r.recType r.this_fn r.call_site).next t.perfCountType v).pc =
        r.pc := by
      simp only [PerfField.next, hshown, PerfRecord.pc]
      cases r.recType <;> rfl
    rw [fields, PerfField.events_append, ih, recordFields, PerfField.events, hevent,
      events_counts htype, hpc]
    rfl

/-- **Performance traces round trip.** After the header and any number of fields of records, every
word is consumed and the events are those of the counters and of the records; at most a last counter
is still pending. -/
theorem processITCPerf_inverts {p : PerfConverter} {coreId : ℕ} (hserves : t.Serves p coreId)
    (htype : t.perfCountType ≠ .deltaXOR) (hdefined : t.CountersDefined)
    {prevCntrVal : Option (ℕ → BitVec 64)}
    (hprev : prevCntrVal = none → t.perfCntrMask = 0) {rs : List PerfRecord} (heven : Even rs) :
    t.records prevCntrVal rs = (t.fields (prevCntrVal.getD fun _ => 0) rs).flatMap
      PerfField.writes ∧
      ∀ n ms, t.Shows (t.perfEmitMarker ++ ((t.fields (prevCntrVal.getD fun _ => 0) rs).take
          n).flatMap PerfField.writes) ms →
        ∃ (p' : PerfConverter) (emitted : List PerfEmitted) (pending : Option PerfEvent),
          p.run coreId ms = some (p', emitted) ∧
          t.markerEvents ++ (t.recordEvents (prevCntrVal.getD fun _ => 0) rs).take n = emitted.map
            (·.event) ++ pending.toList ∧
          ∀ e ∈ pending, ∃ pc index val, e = .cntr pc index val := by
  refine ⟨t.records_eq hprev rs, fun n ms hms => ?_⟩
  obtain ⟨p', emitted, pending, hrun, hevents, hpending, -⟩ :=
    run_fields hserves hdefined ((follows_fields t heven _).take n) hms
  rw [PerfField.events_take, events_fields htype] at hevents
  exact ⟨p', emitted, pending, hrun, hevents, hpending⟩

def cycles (cntType : PerfCount) : PerfTracer :=
  ⟨6, 0x70657266, cntType, 1, fun _ => ⟨0, 1, 0, 0x3fc00⟩, 0, fun _ => 0⟩

def converter (t : PerfTracer) : PerfConverter :=
  ⟨BitVec.ofNat 32 t.itcChannel, t.perfMarkerVal, fun _ => ⟨.sync, 0, 0, false, .raw, 0, 0, 0, 0, 0,
    0, 0, none⟩⟩

theorem serves_converter (t : PerfTracer) (coreId : ℕ) : t.Serves t.converter coreId :=
  ⟨rfl, rfl, rfl, rfl, rfl, rfl, rfl, rfl, rfl⟩

def received (t : PerfTracer) (ws : List Write) : List PerfReceived :=
  ws.map fun w => ⟨0, BitVec.ofNat 32 t.itcChannel * 4 + w.size, w.data⟩

theorem shows_received (t : PerfTracer) (ws : List Write) : t.Shows ws (t.received ws) := by
  induction ws with
  | nil => exact .nil
  | cons w ws ih => exact .cons ⟨rfl, rfl⟩ ih

/-- A function is entered, and left when more cycles have been counted. -/
theorem processITCPerf_inverts_enterExit :
    let rs : List PerfRecord :=
      [⟨.funcEnter, 0x1000, 0x2004, 5, fun _ => 7⟩, ⟨.funcExit, 0x1000, 0x123456789a, 9, fun _ =>
        0x500000007⟩]
    (cycles .delta).records (some fun _ => 0) rs = ((cycles .delta).fields (fun _ => 0) rs).flatMap
      PerfField.writes ∧ ∀ n ms, (cycles .delta).Shows ((cycles .delta).perfEmitMarker ++
          (((cycles .delta).fields (fun _ => 0) rs).take n).flatMap PerfField.writes) ms →
        ∃ (p' : PerfConverter) (emitted : List PerfEmitted) (pending : Option PerfEvent),
          (cycles .delta).converter.run 3 ms = some (p', emitted) ∧
          (cycles .delta).markerEvents ++ ((cycles .delta).recordEvents (fun _ => 0) rs).take n =
            emitted.map (·.event) ++ pending.toList ∧
          ∀ e ∈ pending, ∃ pc index val, e = .cntr pc index val := by
  intro rs
  have htype : (cycles .delta).perfCountType ≠ .deltaXOR := by decide
  have hdefined : (cycles .delta).CountersDefined := fun _ _ => .inl rfl
  have hprev : (some fun _ => 0 : Option (ℕ → BitVec 64)) = none → (cycles .delta).perfCntrMask =
      0 :=
    fun hnone => absurd hnone (Option.some_ne_none _)
  have heven : Even rs :=
    List.forall_mem_cons.mpr ⟨⟨by decide, fun _ => by decide⟩,
      List.forall_mem_singleton.mpr ⟨by decide, fun _ => by decide⟩⟩
  exact processITCPerf_inverts (serves_converter _ 3) htype hdefined hprev heven

end PerfTracer

end TraceDecoder
