import TraceDecoder.PerfEncoder

/-!
# Reading performance traces back

What a traced program sends as a list of fields, the events that the fields stand for, and the
states of the converter between two fields: every field is read whole, and at most the event of a
counter is still pending.
-/

namespace TraceDecoder

open SetBits PerfCore PerfTracer

inductive PerfField
  | head (recType : PerfRecordType) (this_fn call_site : ADDRESS)
  | count (index : ℕ) (sent : BitVec 64)

structure PerfView where
  last : ADDRESS
  pc : ADDRESS
  counts : ℕ → BitVec 64

/-- A value that is sent is shown as it is, or as the change of the last one. -/
def shown (cntType : PerfCount) (old value : BitVec 64) : BitVec 64 :=
  if cntType = .deltaXOR then old ^^^ value else value

def low48 (x : BitVec 64) : BitVec 64 := (x.setWidth 48).setWidth 64

namespace PerfField

def writes : PerfField → List Write
  | .head recType this_fn call_site =>
    .byte recType.code :: (addressWrites this_fn ++ if recType.IsCall then addressWrites call_site
      else [])
  | .count _ sent => countWrites sent

def Whole : PerfField → Prop
  | .head _ _ _ => True
  | .count _ sent => sent >>> 32 ≠ 0

variable (cntType : PerfCount)

def event (v : PerfView) : PerfField → PerfEvent
  | .head recType this_fn call_site =>
    let fnAddr := shown cntType v.last this_fn
    let callSite := shown cntType fnAddr call_site
    match recType with
    | .funcEnter => .fnEntry fnAddr callSite
    | .funcExit => .fnExit fnAddr callSite
    | .manual | .isr => .addr fnAddr
  | .count index sent => .cntr v.pc index (shown cntType (v.counts index) (low48 sent))

def next (v : PerfView) : PerfField → PerfView
  | .head recType this_fn call_site =>
    let fnAddr := shown cntType v.last this_fn
    let callSite := shown cntType fnAddr call_site
    match recType with
    | .funcEnter => { v with last := callSite, pc := fnAddr }
    | .funcExit => { v with last := callSite, pc := callSite }
    | .manual | .isr => { v with last := fnAddr, pc := fnAddr }
  | .count index sent =>
    { v with counts :=
      Function.update v.counts index (shown cntType (v.counts index) (low48 sent)) }

def events : PerfView → List PerfField → List PerfEvent
  | _, [] => []
  | v, f :: fs => f.event cntType v :: events (f.next cntType v) fs

def view (v : PerfView) (fs : List PerfField) : PerfView := fs.foldl (fun v f => f.next cntType v) v

theorem events_append (v : PerfView) (fs gs : List PerfField) :
    events cntType v (fs ++ gs) = events cntType v fs ++ events cntType (view cntType v fs) gs := by
  induction fs generalizing v with
  | nil => rfl
  | cons f fs ih =>
    rw [List.cons_append, events, ih]
    rfl

/-- The events of the first fields are the first events. -/
theorem events_take (v : PerfView) (fs : List PerfField) (n : ℕ) :
    events cntType v (fs.take n) = (events cntType v fs).take n := by
  induction fs generalizing v n with
  | nil => rw [List.take_nil, events, List.take_nil]
  | cons f fs ih =>
    cases n with
    | zero => rfl
    | succ n => rw [List.take_succ_cons, events, ih, events, List.take_succ_cons]

/-- The fields are those of records, from a record on of which the given
counters are still to come. -/
inductive Follows (mask : BitVec 32) : List ℕ → List PerfField → Prop
  | nil {is : List ℕ} : Follows mask is []
  | count {i : ℕ} {is : List ℕ} {sent : BitVec 64} {fs : List PerfField} (h : Follows mask is fs) :
      Follows mask (i :: is) (.count i sent :: fs)
  | head {recType : PerfRecordType} {this_fn call_site : ADDRESS} {fs : List PerfField}
      (hfn : this_fn.getLsbD 0 = false) (hsite : recType.IsCall → call_site.getLsbD 0 = false)
      (h : Follows mask (bitsFrom mask 0) fs) :
        Follows mask [] (.head recType this_fn call_site :: fs)

theorem Follows.take {mask : BitVec 32} {is : List ℕ} {fs : List PerfField} (h : Follows mask is fs)
    (n : ℕ) :
    Follows mask is (fs.take n) := by
  induction h generalizing n with
  | nil =>
    rw [List.take_nil]
    exact .nil
  | count h ih =>
    cases n with
    | zero => exact .nil
    | succ n => exact .count (ih n)
  | head hfn hsite h ih =>
    cases n with
    | zero => exact .nil
    | succ n => exact .head hfn hsite (ih n)

end PerfField

/-! ### Words -/

/-- The core reads the writes, each consumed, and emits the events. -/
inductive Reads (markerValue : BitVec 32) : PerfCore → List Write → List PerfEvent → PerfCore → Prop
  | nil {c : PerfCore} : Reads markerValue c [] [] c
  | cons {c c' c'' : PerfCore} {w : Write} {ws : List Write} {es es' : List PerfEvent}
      (hw : c.passes markerValue w.size w.data 2 = (.returned .ok true, c', es))
      (hws : Reads markerValue c' ws es' c'') : Reads markerValue c (w :: ws) (es ++ es') c''

namespace Reads

variable {markerValue : BitVec 32} {c c' c'' : PerfCore} {ws ws' : List Write}
    {es es' : List PerfEvent}

theorem append (h : Reads markerValue c ws es c') (h' : Reads markerValue c' ws' es' c'') :
    Reads markerValue c (ws ++ ws') (es ++ es') c'' := by
  induction h with
  | nil => exact h'
  | cons hw _ ih =>
    rw [List.append_assoc]
    exact .cons hw (ih h')

theorem single {w : Write} (hw : c.passes markerValue w.size w.data 2 =
      (.returned .ok true, c', es)) :
    Reads markerValue c [w] es c' := by
  have h := Reads.cons hw .nil
  rwa [List.append_nil] at h

theorem of_pass {size data : BitVec 32}
    (hw : c.onePass markerValue size data = (.consumed, c', es)) :
    Reads markerValue c [⟨size, data⟩] es c' := by
  refine single ?_
  rw [passes, hw]

theorem of_again {size data : BitVec 32} (hw : c.onePass markerValue size data = (.again, c', es))
    (hw' : c'.onePass markerValue size data = (.consumed, c'', es')) :
    Reads markerValue c [⟨size, data⟩] (es ++ es') c'' := by
  refine single ?_
  rw [passes, hw]
  simp only [passes, hw']

end Reads

/-! ### Addresses -/

theorem getLsbD_low32 (a : BitVec 64) {i : ℕ} (hi : i < 32) : (low32 a).getLsbD i =
    a.getLsbD i := by
  rw [low32, BitVec.getLsbD_setWidth, decide_eq_true hi, Bool.true_and]

theorem getLsbD_high32 (a : BitVec 64) {i : ℕ} (hi : i < 32) : (high32 a).getLsbD i = a.getLsbD
    (32 + i) := by
  rw [high32, BitVec.getLsbD_setWidth, BitVec.getLsbD_ushiftRight, decide_eq_true hi, Bool.true_and]

theorem wide_halves (a : BitVec 64) : wide (high32 a) (low32 a) = a := by
  refine BitVec.eq_of_getLsbD_eq fun i hi => ?_
  rw [wide, BitVec.getLsbD_append]
  split_ifs with hlt
  · exact getLsbD_low32 a hlt
  · rw [getLsbD_high32 a (by omega), Nat.add_sub_cancel' (by omega)]

theorem setWidth_low32 {a : BitVec 64} (h : high32 a = 0) : (low32 a).setWidth 64 = a := by
  refine BitVec.eq_of_getLsbD_eq fun i hi => ?_
  have hi' : i < 64 := hi
  rw [BitVec.getLsbD_setWidth, decide_eq_true hi', Bool.true_and]
  by_cases hlt : i < 32
  · exact getLsbD_low32 a hlt
  · have hbit := getLsbD_high32 a (show i - 32 < 32 by omega)
    rw [Nat.add_sub_cancel' (by omega), h] at hbit
    rw [BitVec.getLsbD_of_ge _ _ (by omega), ← hbit]
    exact BitVec.getLsbD_zero.symm

section
variable (markerValue : BitVec 32) {c : PerfCore}
    (got : PerfCore → BitVec 64 → PerfCore × List PerfEvent)

theorem low_bit_marked (x : BitVec 32) : (x ||| 1).getLsbD 0 = true := by
  rw [BitVec.getLsbD_or]
  exact Bool.or_true _

theorem low_bit_cleared {x : BitVec 32} (h : x.getLsbD 0 = false) : (x ||| 1) &&& ~~~1 = x := by
  refine BitVec.eq_of_getLsbD_eq fun i hi => ?_
  rcases Nat.eq_zero_or_pos i with rfl | hpos
  · rw [BitVec.getLsbD_and, h]
    exact Bool.and_false _
  · have hone : (1 : BitVec 32).getLsbD i = false := by
      rw [BitVec.ofNat_eq_ofNat, BitVec.getLsbD_one]
      simp only [decide_eq_false (Nat.ne_of_gt hpos), Bool.and_false]
    rw [BitVec.getLsbD_and, BitVec.getLsbD_or, BitVec.getLsbD_not, hone, decide_eq_true hi,
      Bool.or_false, Bool.not_false, Bool.and_true, Bool.and_true]

/-- An even address is read by the state for it from one or two halves. -/
theorem reads_address {a : ADDRESS} (heven : a.getLsbD 0 = false)
    (hpending : c.valuePending = false)
    (hpass : ∀ (c' : PerfCore) (data : BitVec 32), c'.state = c.state →
      c'.onePass markerValue 0 data = c'.gotHalf got data) :
    ∃ saved pending, Reads markerValue c (addressWrites a)
      (got { c with savedLow32 := saved, valuePending := pending } a).2
      (got { c with savedLow32 := saved, valuePending := pending } a).1 := by
  have hlow : (low32 a).getLsbD 0 = false := by
    rw [low32, BitVec.getLsbD_setWidth, heven, Bool.and_false]
  have hnone : ¬ c.valuePending = true := Bool.eq_false_iff.mp hpending
  by_cases hhigh : high32 a = 0
  · have hwrites : addressWrites a = [.word (low32 a)] := if_neg (not_not.mpr hhigh)
    have hfirst : c.onePass markerValue 0 (low32 a) = (.consumed, got c a) := by
      rw [hpass c _ rfl, gotHalf, if_neg hnone, if_neg (Bool.eq_false_iff.mp hlow),
        setWidth_low32 hhigh]
    refine ⟨c.savedLow32, c.valuePending, ?_⟩
    rw [hwrites]
    exact .of_pass hfirst
  · have hwrites : addressWrites a = [.word (low32 a ||| 1), .word (high32 a)] := if_pos hhigh
    have hfirst : c.onePass markerValue 0 (low32 a ||| 1) =
        (.consumed, { c with savedLow32 := low32 a, valuePending := true }, []) := by
      rw [hpass c _ rfl, gotHalf, if_neg hnone, if_pos (low_bit_marked _), low_bit_cleared hlow]
    have hsecond : onePass { c with savedLow32 := low32 a, valuePending := true } markerValue 0
        (high32 a) = (.consumed, got { c with savedLow32 := low32 a, valuePending := true } a) := by
      have hsame := hpass { c with savedLow32 := low32 a, valuePending := true } (high32 a) rfl
      rw [hsame, gotHalf, if_pos rfl, wide_halves]
    refine ⟨low32 a, true, ?_⟩
    rw [hwrites]
    exact (Reads.of_pass hfirst).append (.of_pass hsecond)

end

/-! ### Passes over counters -/

section
variable {low : BitVec 32} {c c' : PerfCore} {e : PerfEvent} (markerValue data : BitVec 32)

theorem pass_getCnts (hstate : c.state = .getCnts) (size : BitVec 32) :
    c.onePass markerValue size data = c.gotCount size data := by
  rw [onePass, hstate]

theorem gotCount_low (hpending : c.valuePending = false) :
    c.gotCount 0 data = (.consumed, { c with valuePending := true, savedLow32 := data }, []) := by
  rw [gotCount, if_pos rfl, if_neg (Bool.eq_false_iff.mp hpending)]

theorem gotCount_low_pending (hpending : c.valuePending = true) (hlow : c.savedLow32 = low)
    (hemit : c.emitCount (low.setWidth 64) = some (c', e))
    (hnext : nextCounter c'.cntrMask c'.cntrMaskIndex < 32) :
    c.gotCount 0 data = (.consumed, { c' with
      cntrMaskIndex := nextCounter c'.cntrMask c'.cntrMaskIndex, valuePending := true,
          savedLow32 := data }, [e]) := by
  rw [gotCount, if_pos rfl, if_pos hpending, hlow, hemit]
  exact if_neg (not_le.mpr hnext)

theorem gotCount_high (hpending : c.valuePending = true) (hlow : c.savedLow32 = low)
    (hemit : c.emitCount (wide data low) = some (c', e)) :
    c.gotCount 2 data = (.consumed, { c' with
      cntrMaskIndex := nextCounter c'.cntrMask c'.cntrMaskIndex
      valuePending := false
      state := if 32 ≤ nextCounter c'.cntrMask c'.cntrMaskIndex then .getCntrRecord else c'.state },
        [e]) := by
  rw [gotCount, if_neg (by decide), if_pos rfl, if_neg (by rw [hpending]; decide), hlow, hemit]

theorem gotCount_type_pending (hpending : c.valuePending = true) (hlow : c.savedLow32 = low)
    (hemit : c.emitCount (low.setWidth 64) = some (c', e)) :
    c.gotCount 3 data = (.again, { c' with valuePending := false, state := .getCntrRecord },
        [e]) := by
  rw [gotCount, if_neg (by decide), if_neg (by decide), if_pos rfl, if_pos hpending, hlow, hemit]

theorem pass_getCntrRecord (hstate : c.state = .getCntrRecord) : c.onePass markerValue 3 data =
    (.consumed, { c with recordType := data.setWidth 8, valuePending := false, state := .getAddr },
      []) := by
  rw [onePass, hstate]
  exact if_pos rfl

end

/-! ### Between two fields -/

/-- What the converter keeps of the view; last counts are kept for exclusive ors only. -/
structure Keeping (cntType : PerfCount) (mask : BitVec 32) (last : ADDRESS) (counts : ℕ → BitVec 64)
    (c : PerfCore) :
    Prop where
  type : c.cntType = cntType
  cntrMask : c.cntrMask = mask
  lastAddress : c.lastAddress = last
  lastCount : cntType = .deltaXOR → mask ≠ 0 → c.lastCount = some counts

/-- The low half of the counter `i` is saved. -/
structure Saved (cntType : PerfCount) (mask : BitVec 32) (v : PerfView) (i : ℕ) (low : BitVec 32)
    (c : PerfCore) :
    Prop where
  keeping : Keeping cntType mask v.last v.counts c
  state : c.state = .getCnts
  valuePending : c.valuePending = true
  cntrAddress : c.cntrAddress = v.pc
  cntrMaskIndex : c.cntrMaskIndex = i
  bit : mask.getLsbD i = true
  savedLow32 : c.savedLow32 = low

/-- Between two fields: the counters that are still to come, the event that
is pending, and the core. -/
inductive Between (cntType : PerfCount) (mask : BitVec 32) (v : PerfView) :
    List ℕ → Option PerfEvent → PerfCore → Prop
  | record {c : PerfCore} (hkeeping : Keeping cntType mask v.last v.counts c)
    (hstate : c.state = .getCntrRecord) :
      Between cntType mask v [] none c
  | counts {c : PerfCore} {i k : ℕ} {is : List ℕ} (hkeeping : Keeping cntType mask v.last v.counts
      c) (hstate : c.state = .getCnts) (hpending : c.valuePending = false) (hpc : c.cntrAddress =
        v.pc)
      (hindex : c.cntrMaskIndex = i) (his : bitsFrom mask k = i :: is) :
        Between cntType mask v (i :: is) none c
  | pending {c : PerfCore} {i : ℕ} {low : BitVec 32} {counts : ℕ → BitVec 64}
      (hsaved : Saved cntType mask ⟨v.last, v.pc, counts⟩ i low c)
      (hcounts : v.counts = Function.update counts i (shown cntType (counts i) (low.setWidth 64))) :
      Between cntType mask v (bitsFrom mask (i + 1))
        (some (.cntr v.pc i (shown cntType (counts i) (low.setWidth 64)))) c

section
variable {markerValue mask : BitVec 32} {cntType : PerfCount} {v : PerfView} {c : PerfCore}

theorem ne_zero_of_bit {i : ℕ} (hbit : mask.getLsbD i = true) : mask ≠ 0 := by
  rintro rfl
  exact absurd (hbit.symm.trans BitVec.getLsbD_zero) (by decide)

theorem nextCounter_eq {i : ℕ} (hbit : mask.getLsbD i = true) :
    nextCounter mask i = (bitsFrom mask (i + 1)).headD 32 :=
  seek_eq mask (BitVec.lt_of_getLsbD hbit)

theorem firstCounter_eq (mask : BitVec 32) : firstCounter mask = (bitsFrom mask 0).headD 32 :=
  seek_eq mask (Nat.zero_le 32)

theorem Saved.emitCount {i : ℕ} {low : BitVec 32} (h : Saved cntType mask v i low c)
    (value : BitVec 64) :
    ∃ c', c.emitCount value = some (c', .cntr v.pc i (shown cntType (v.counts i) value)) ∧
      Keeping cntType mask v.last (Function.update v.counts i (shown cntType (v.counts i) value))
        c' ∧
      c'.state = .getCnts ∧ c'.cntrAddress = v.pc ∧ nextCounter c'.cntrMask c'.cntrMaskIndex =
        (bitsFrom mask (i + 1)).headD 32 := by
  have hlt : ¬ 32 ≤ c.cntrMaskIndex := by
    rw [h.cntrMaskIndex]
    exact not_le.mpr (BitVec.lt_of_getLsbD h.bit)
  have hnext : nextCounter c.cntrMask i = (bitsFrom mask (i + 1)).headD 32 := by
    rw [h.keeping.cntrMask, nextCounter_eq h.bit]
  have htype : c.cntType = .deltaXOR ↔ cntType = .deltaXOR := by rw [h.keeping.type]
  rw [PerfCore.emitCount, if_neg hlt, h.cntrMaskIndex, h.cntrAddress]
  by_cases hxor : cntType = .deltaXOR
  · rw [if_pos (htype.mpr hxor), h.keeping.lastCount hxor (ne_zero_of_bit h.bit)]
    simp only [shown, if_pos hxor]
    exact ⟨_, rfl, ⟨h.keeping.type, h.keeping.cntrMask, h.keeping.lastAddress, fun _ _ => rfl⟩,
      h.state, rfl, hnext⟩
  · rw [if_neg (mt htype.mp hxor), shown, if_neg hxor]
    exact ⟨c, rfl, ⟨h.keeping.type, h.keeping.cntrMask, h.keeping.lastAddress, fun hxor' =>
      absurd hxor' hxor⟩, h.state, h.cntrAddress, by rw [h.cntrMaskIndex]; exact hnext⟩

/-! ### Counters -/

/-- The low half of a counter: what was pending is emitted. -/
theorem reads_low {i : ℕ} {is : List ℕ} {pending : Option PerfEvent}
    (h : Between cntType mask v (i :: is) pending c)
    (low : BitVec 32) : is = bitsFrom mask (i + 1) ∧
      ∃ c', Reads markerValue c [.word low] pending.toList c' ∧ Saved cntType mask v i low c' := by
  generalize hjs : i :: is = js at h
  cases h with
  | record => cases hjs
  | @counts _ j k js hkeeping hstate hpending hpc hindex his =>
    obtain ⟨rfl, rfl⟩ := List.cons.inj hjs
    have hmem : i ∈ bitsFrom mask k := by rw [his]; exact List.mem_cons_self
    refine ⟨bitsFrom_tail his, _, .of_pass ((pass_getCnts _ low hstate 0).trans
      (gotCount_low low hpending)), ?_⟩
    exact ⟨⟨hkeeping.type, hkeeping.cntrMask, hkeeping.lastAddress, hkeeping.lastCount⟩, hstate,
      rfl, hpc, hindex, (mem_bitsFrom.mp hmem).2, rfl⟩
  | @pending _ j low₀ counts hsaved hcounts =>
    obtain ⟨c', hemit, hkeeping, hstate, hpc, hnext⟩ := hsaved.emitCount (low₀.setWidth 64)
    have hmem : i ∈ bitsFrom mask (j + 1) := by rw [← hjs]; exact List.mem_cons_self
    have hbit := (mem_bitsFrom.mp hmem).2
    rw [← hjs, List.headD_cons] at hnext
    have hlt : nextCounter c'.cntrMask c'.cntrMaskIndex < 32 := by
      rw [hnext]
      exact BitVec.lt_of_getLsbD hbit
    have hread := gotCount_low_pending low hsaved.valuePending hsaved.savedLow32 hemit hlt
    refine ⟨bitsFrom_tail hjs.symm, _, .of_pass ((pass_getCnts _ low hsaved.state 0).trans hread),
      ?_⟩
    exact ⟨⟨hkeeping.type, hkeeping.cntrMask, hkeeping.lastAddress, hcounts ▸ hkeeping.lastCount⟩,
      hstate, rfl, hpc, hnext, hbit, rfl⟩

theorem low48_of_low {sent : BitVec 64} (h : sent >>> 32 = 0) :
    low48 sent = (low32 sent).setWidth 64 := by
  have hhigh : high32 sent = 0 := by rw [high32, h]; rfl
  rw [setWidth_low32 hhigh, low48]
  refine BitVec.eq_of_getLsbD_eq fun i hi => ?_
  rw [BitVec.getLsbD_setWidth, BitVec.getLsbD_setWidth, decide_eq_true hi, Bool.true_and]
  by_cases hlt : i < 48
  · rw [decide_eq_true hlt, Bool.true_and]
  · have hbit : (sent >>> 32).getLsbD (i - 32) = sent.getLsbD i := by
      rw [BitVec.getLsbD_ushiftRight, Nat.add_sub_cancel' (by omega)]
    rw [decide_eq_false hlt, Bool.false_and, ← hbit, h]
    exact BitVec.getLsbD_zero.symm

theorem low48_of_wide (sent : BitVec 64) :
    wide (((sent >>> 32).setWidth 16).setWidth 32) (low32 sent) = low48 sent := by
  refine BitVec.eq_of_getLsbD_eq fun i hi => ?_
  rw [wide, BitVec.getLsbD_append, BitVec.getLsbD_setWidth, BitVec.getLsbD_setWidth,
    BitVec.getLsbD_ushiftRight]
  rw [low48, BitVec.getLsbD_setWidth, BitVec.getLsbD_setWidth, decide_eq_true (show i < 64 from hi),
    Bool.true_and]
  split_ifs with hlt
  · rw [getLsbD_low32 sent hlt, decide_eq_true (show i < 48 by omega), Bool.true_and]
  · rw [Nat.add_sub_cancel' (by omega), decide_eq_true (show i - 32 < 32 by omega), Bool.true_and]
    congr 1
    exact decide_eq_decide.mpr (by omega)

theorem between_none {is : List ℕ} {k : ℕ} (hkeeping : Keeping cntType mask v.last v.counts c)
    (hpending : c.valuePending = false) (hpc : c.cntrAddress = v.pc) (his : bitsFrom mask k = is)
    (hstate : c.state = if 32 ≤ is.headD 32 then .getCntrRecord else .getCnts)
    (hindex : is ≠ [] → c.cntrMaskIndex = is.headD 32) : Between cntType mask v is none c := by
  cases is with
  | nil => exact .record hkeeping hstate
  | cons i is =>
    have hmem : i ∈ bitsFrom mask k := by rw [his]; exact List.mem_cons_self
    have hlt : ¬ 32 ≤ i := not_le.mpr (BitVec.lt_of_getLsbD (mem_bitsFrom.mp hmem).2)
    rw [List.headD_cons, if_neg hlt] at hstate
    exact .counts hkeeping hstate hpending hpc (hindex (List.cons_ne_nil i is)) his

/-- **A counter** is read: its event is emitted, or pending where it has a low half only. -/
theorem reads_count {i : ℕ} {is : List ℕ} {pending : Option PerfEvent}
    (h : Between cntType mask v (i :: is) pending c) (sent : BitVec 64) :
    ∃ c' es pending', Reads markerValue c (countWrites sent) es c' ∧
      Between cntType mask ((PerfField.count i sent).next cntType v) is pending' c' ∧
      pending.toList ++ [(PerfField.count i sent).event cntType v] = es ++ pending'.toList ∧
      (pending' = none ↔ sent >>> 32 ≠ 0) := by
  obtain ⟨rfl, c', hreads, hsaved⟩ := reads_low h (low32 sent)
  by_cases hhigh : sent >>> 32 = 0
  · have hwrites : countWrites sent = [.word (low32 sent)] := by
      rw [countWrites, if_neg (not_not.mpr hhigh)]
    refine ⟨c', pending.toList, _, hwrites ▸ hreads, .pending hsaved ?_, ?_,
      iff_of_false (Option.some_ne_none _) (not_not.mpr hhigh)⟩
    · rw [PerfField.next, low48_of_low hhigh]
    · rw [PerfField.event, low48_of_low hhigh]
      rfl
  · have hwrites : countWrites sent = [.word (low32 sent), .half ((sent >>> 32).setWidth 16)] := by
      rw [countWrites, if_pos hhigh]
    obtain ⟨c'', hemit, hkeeping, hstate, hpc, hnext⟩ := hsaved.emitCount (low48 sent)
    have hread :=
      gotCount_high (((sent >>> 32).setWidth 16).setWidth 32) hsaved.valuePending hsaved.savedLow32
        ((congrArg _ (low48_of_wide sent)).trans hemit)
    rw [hstate, hnext] at hread
    have hword := (pass_getCnts markerValue _ hsaved.state 2).trans hread
    rw [hwrites]
    refine ⟨_, _, none, hreads.append (.of_pass hword), ?_, (List.append_nil _).symm,
      iff_of_true rfl hhigh⟩
    exact between_none ⟨hkeeping.type, hkeeping.cntrMask, hkeeping.lastAddress, hkeeping.lastCount⟩
      rfl hpc rfl rfl fun _ => rfl

/-! ### Heads of records -/

theorem between_toCounts (hkeeping : Keeping cntType mask v.last v.counts c)
    (hpending : c.valuePending = false)
    (hpc : c.cntrAddress = v.pc) : Between cntType mask v (bitsFrom mask 0) none c.toCounts := by
  have hmask : c.cntrMask ≠ 0 ↔ bitsFrom mask 0 ≠ [] := by
    rw [hkeeping.cntrMask]
    exact not_congr bitsFrom_eq_nil.symm
  by_cases hnone : bitsFrom mask 0 = []
  · rw [toCounts, if_neg (fun h => hmask.mp h hnone), hnone]
    exact .record ⟨hkeeping.type, hkeeping.cntrMask, hkeeping.lastAddress, hkeeping.lastCount⟩ rfl
  · obtain ⟨i, is, his⟩ := List.exists_cons_of_ne_nil hnone
    rw [toCounts, if_pos (hmask.mpr hnone), hkeeping.cntrMask, firstCounter_eq, his]
    exact .counts ⟨hkeeping.type, rfl, hkeeping.lastAddress, hkeeping.lastCount⟩ rfl hpending hpc
      rfl his

theorem reads_type {pending : Option PerfEvent} (h : Between cntType mask v [] pending c)
    (recType : PerfRecordType) :
    ∃ c', Reads markerValue c [.byte recType.code] pending.toList c' ∧
      Keeping cntType mask v.last v.counts c' ∧
      c'.state = .getAddr ∧ c'.valuePending = false ∧ c'.recordType = recType.code := by
  have hcode : (recType.code.setWidth 32).setWidth 8 = recType.code := by cases recType <;> rfl
  generalize hjs : ([] : List ℕ) = js at h
  cases h with
  | record hkeeping hstate =>
    refine ⟨_, .of_pass (pass_getCntrRecord _ _ hstate), ?_, rfl, rfl, hcode⟩
    exact ⟨hkeeping.type, hkeeping.cntrMask, hkeeping.lastAddress, hkeeping.lastCount⟩
  | counts => cases hjs
  | @pending _ j low counts hsaved hcounts =>
    obtain ⟨c', hemit, hkeeping, -, -, -⟩ := hsaved.emitCount (low.setWidth 64)
    have hflush :=
      gotCount_type_pending (recType.code.setWidth 32) hsaved.valuePending hsaved.savedLow32 hemit
    refine ⟨_, .of_again ((pass_getCnts _ _ hsaved.state 3).trans hflush)
      (pass_getCntrRecord _ _ rfl), ?_, rfl, rfl, hcode⟩
    exact ⟨hkeeping.type, hkeeping.cntrMask, hkeeping.lastAddress, hcounts ▸ hkeeping.lastCount⟩

theorem gotAddress_spec {last : ADDRESS} {counts : ℕ → BitVec 64}
    (hkeeping : Keeping cntType mask last counts c) (a : ADDRESS) :
    if c.IsCall then
      ∃ c', c.gotAddress a = (c', []) ∧ Keeping cntType mask (shown cntType last a) counts c' ∧
        c'.state = .getCallSite ∧ c'.valuePending = false ∧ c'.recordType = c.recordType
    else
      ∃ c', c.gotAddress a = (c', [.addr (shown cntType last a)]) ∧
        Between cntType mask ⟨shown cntType last a, shown cntType last a, counts⟩
          (bitsFrom mask 0) none c' := by
  have hshown : (if c.cntType = .deltaXOR then c.lastAddress ^^^ a else a) =
      shown cntType last a := by
    rw [hkeeping.type, hkeeping.lastAddress, shown]
  have hcall : IsCall { c with lastAddress := shown cntType last a, valuePending := false } ↔
    c.IsCall := Iff.rfl
  simp only [gotAddress, hshown, hcall]
  split_ifs
  · exact ⟨_, rfl, ⟨hkeeping.type, hkeeping.cntrMask, rfl, hkeeping.lastCount⟩, rfl, rfl, rfl⟩
  · exact ⟨_, rfl, between_toCounts ⟨hkeeping.type, hkeeping.cntrMask, rfl, hkeeping.lastCount⟩ rfl
      rfl⟩

theorem gotCallSite_spec {last : ADDRESS} {counts : ℕ → BitVec 64}
    (hkeeping : Keeping cntType mask last counts c) (a : ADDRESS) :
    if c.recordType = perfRecord_FuncEnter then
      ∃ c', c.gotCallSite a = (c', [.fnEntry last (shown cntType last a)]) ∧
        Between cntType mask ⟨shown cntType last a, last, counts⟩ (bitsFrom mask 0) none c'
    else
      ∃ c', c.gotCallSite a = (c', [.fnExit last (shown cntType last a)]) ∧
        Between cntType mask ⟨shown cntType last a, shown cntType last a, counts⟩
          (bitsFrom mask 0) none c' := by
  have hshown : (if c.cntType = .deltaXOR then last ^^^ a else a) = shown cntType last a := by
    rw [hkeeping.type, shown]
  simp only [gotCallSite, hkeeping.lastAddress, hshown]
  split_ifs
  · refine ⟨_, rfl, ?_⟩
    exact between_toCounts ⟨hkeeping.type, hkeeping.cntrMask, rfl, hkeeping.lastCount⟩ rfl rfl
  · refine ⟨_, rfl, ?_⟩
    exact between_toCounts ⟨hkeeping.type, hkeeping.cntrMask, rfl, hkeeping.lastCount⟩ rfl rfl

theorem isCall_iff {recType : PerfRecordType} (h : c.recordType = recType.code) :
    c.IsCall ↔ recType.IsCall := by
  rw [IsCall, h]
  cases recType <;> decide

/-- **The head of a record** is read whole. -/
theorem reads_head {recType : PerfRecordType} {fn site : ADDRESS} {pending : Option PerfEvent}
    (h : Between cntType mask v [] pending c) (hfn : fn.getLsbD 0 = false)
    (hsite : recType.IsCall → site.getLsbD 0 = false) :
    ∃ c', Reads markerValue c (PerfField.head recType fn site).writes
        (pending.toList ++ [(PerfField.head recType fn site).event cntType v]) c' ∧
      Between cntType mask ((PerfField.head recType fn site).next cntType v)
        (bitsFrom mask 0) none c' := by
  obtain ⟨c₁, htype, hkeeping, hstate, hpending, hrec⟩ := reads_type h recType
  obtain ⟨saved, half, haddr⟩ := reads_address markerValue gotAddress hfn hpending
    fun c' data hc' => by rw [onePass, hc'.trans hstate]
  have hkeeping' : Keeping cntType mask v.last v.counts
      { c₁ with savedLow32 := saved, valuePending := half } :=
    ⟨hkeeping.type, hkeeping.cntrMask, hkeeping.lastAddress, hkeeping.lastCount⟩
  have hspec := gotAddress_spec hkeeping' fn
  have hcall := isCall_iff (c := { c₁ with savedLow32 := saved, valuePending := half }) hrec
  by_cases hrecCall : recType.IsCall
  · rw [if_pos (hcall.mpr hrecCall)] at hspec
    obtain ⟨c₂, hgot, hkeeping₂, hstate₂, hpending₂, hrec₂⟩ := hspec
    rw [hgot] at haddr
    obtain ⟨saved₂, half₂, hcallSite⟩ := reads_address markerValue gotCallSite (hsite hrecCall)
      hpending₂ fun c' data hc' => by rw [onePass, hc'.trans hstate₂]
    have hkeeping₃ : Keeping cntType mask (shown cntType v.last fn) v.counts
        { c₂ with savedLow32 := saved₂, valuePending := half₂ } :=
      ⟨hkeeping₂.type, hkeeping₂.cntrMask, hkeeping₂.lastAddress, hkeeping₂.lastCount⟩
    have hspec₃ := gotCallSite_spec hkeeping₃ site
    have hrec₃ : c₂.recordType = recType.code := hrec₂.trans hrec
    have hreads := (htype.append haddr).append hcallSite
    rw [List.append_nil] at hreads
    have hwrites : (PerfField.head recType fn site).writes = [.byte recType.code] ++ addressWrites
        fn ++ addressWrites site := by
      rw [PerfField.writes, if_pos hrecCall, List.append_assoc, List.singleton_append]
    rw [hwrites]
    rcases hrecCall with rfl | rfl
    · rw [if_pos (by rw [hrec₃]; rfl)] at hspec₃
      obtain ⟨c₃, hgot₃, hbetween⟩ := hspec₃
      rw [hgot₃] at hreads
      exact ⟨c₃, hreads, hbetween⟩
    · rw [if_neg (by rw [hrec₃]; decide)] at hspec₃
      obtain ⟨c₃, hgot₃, hbetween⟩ := hspec₃
      rw [hgot₃] at hreads
      exact ⟨c₃, hreads, hbetween⟩
  · rw [if_neg (mt hcall.mp hrecCall)] at hspec
    obtain ⟨c₂, hgot, hbetween⟩ := hspec
    rw [hgot] at haddr
    have hwrites : (PerfField.head recType fn site).writes = [.byte recType.code] ++
        addressWrites fn := by
      rw [PerfField.writes, if_neg hrecCall, List.append_nil, List.singleton_append]
    rw [hwrites]
    cases recType with
    | funcEnter => exact absurd (.inl rfl) hrecCall
    | funcExit => exact absurd (.inr rfl) hrecCall
    | manual => exact ⟨c₂, htype.append haddr, hbetween⟩
    | isr => exact ⟨c₂, htype.append haddr, hbetween⟩

/-! ### Whole traces -/

/-- Whether the field before has an event that is not pending; `whole` is for the start. -/
def lastWhole (whole : Prop) (fs : List PerfField) : Prop := fs.getLast?.elim whole PerfField.Whole

theorem lastWhole_cons (whole : Prop) (f : PerfField) (fs : List PerfField) :
    lastWhole whole (f :: fs) ↔ lastWhole f.Whole fs := by
  cases fs with
  | nil => rfl
  | cons g fs => rw [lastWhole, lastWhole, List.getLast?_cons_cons]; rfl

/-- Fields of records are read one after the other; what is not yet emitted of
their events is pending. -/
theorem reads_fields {is : List ℕ} {fs : List PerfField} (hfs : PerfField.Follows mask is fs)
    {pending : Option PerfEvent} (h : Between cntType mask v is pending c) :
    ∃ c' es is' v' pending', Reads markerValue c (fs.flatMap PerfField.writes) es c' ∧
      Between cntType mask v' is' pending' c' ∧
      pending.toList ++ PerfField.events cntType v fs = es ++ pending'.toList ∧
      (pending' = none ↔ lastWhole (pending = none) fs) := by
  induction hfs generalizing v c pending with
  | nil => exact ⟨c, [], _, v, pending, .nil, h, List.append_nil _, Iff.rfl⟩
  | @count i is sent fs _ ih =>
    obtain ⟨c₁, es, pending₁, hreads, hbetween, hevents, hwhole⟩ := reads_count h sent
    obtain ⟨c₂, es', is', v', pending', hreads', hbetween', hevents', hwhole'⟩ := ih hbetween
    refine ⟨c₂, es ++ es', is', v', pending', hreads.append hreads', hbetween', ?_, ?_⟩
    · rw [PerfField.events, List.append_cons, hevents, List.append_assoc, hevents',
        List.append_assoc]
    · rw [hwhole', lastWhole_cons, hwhole]
      rfl
  | @head recType fn site fs hfn hsite _ ih =>
    obtain ⟨c₁, hreads, hbetween⟩ := reads_head h hfn hsite
    obtain ⟨c₂, es', is', v', pending', hreads', hbetween', hevents', hwhole'⟩ := ih hbetween
    refine ⟨c₂, _, is', v', pending', hreads.append hreads', hbetween', ?_, ?_⟩
    · rw [PerfField.events, List.append_cons, List.append_assoc _ es', ← hevents']
      rfl
    · rw [hwhole', lastWhole_cons, eq_self]
      rfl

theorem Between.cntr {is : List ℕ} {e : PerfEvent} (h : Between cntType mask v is (some e) c) :
    ∃ pc index val, e = .cntr pc index val := by
  cases h with
  | pending => exact ⟨_, _, _, rfl⟩

end

end TraceDecoder
