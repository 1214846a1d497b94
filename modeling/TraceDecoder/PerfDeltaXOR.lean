import Mathlib.Data.List.Chain
import TraceDecoder.PerfRoundTrip

/-!
# Exclusive ors in performance traces

With the count type DeltaXOR the converter takes the exclusive or of every address with the one
before it, where the traced program sends the addresses as they are. When its events are those of
raw counts.
-/

namespace TraceDecoder

open SetBits PerfCore

def xorScan : BitVec 64 → List (BitVec 64) → List (BitVec 64)
  | _, [] => []
  | last, x :: xs => (last ^^^ x) :: xorScan (last ^^^ x) xs

theorem xor_eq_right {x y : BitVec 64} : x ^^^ y = y ↔ x = 0 := by
  constructor
  · intro h
    have h' := congrArg (· ^^^ y) h
    simp only [BitVec.xor_assoc, BitVec.xor_self, BitVec.xor_zero] at h'
    exact h'
  · rintro rfl
    exact BitVec.zero_xor

/-- They are shown right exactly if all but the last one are 0. -/
theorem xorScan_eq_iff (last : BitVec 64) (xs : List (BitVec 64)) :
    xorScan last xs = xs ↔ xs = [] ∨ last = 0 ∧ ∀ x ∈ xs.dropLast, x = 0 := by
  induction xs generalizing last with
  | nil => exact iff_of_true rfl (.inl rfl)
  | cons x xs ih =>
    have hcons : (last ^^^ x) :: xorScan (last ^^^ x) xs = x :: xs ↔ last = 0 ∧
        xorScan x xs = xs := by
      rw [List.cons.injEq, xor_eq_right]
      refine and_congr_right fun h => ?_
      have hzero : last ^^^ x = x := xor_eq_right.mpr h
      rw [hzero]
    rw [xorScan, hcons, ih, or_iff_right (List.cons_ne_nil x xs)]
    refine and_congr_right fun _ => ?_
    cases xs with
    | nil => exact iff_of_true (.inl rfl) (List.forall_mem_nil _)
    | cons y ys =>
      rw [or_iff_right (List.cons_ne_nil y ys), List.dropLast_cons_cons, List.forall_mem_cons]

theorem low48_of_lt {x : BitVec 64} (h : x.toNat < 2 ^ 48) : low48 x = x := by
  refine BitVec.eq_of_toNat_eq ?_
  rw [low48, BitVec.toNat_setWidth, BitVec.toNat_setWidth, Nat.mod_eq_of_lt h,
    Nat.mod_eq_of_lt (by omega)]

namespace PerfRecord

variable (r : PerfRecord)

def addresses : List ADDRESS := if r.recType.IsCall then [r.this_fn, r.call_site] else [r.this_fn]

theorem length_addresses : r.addresses.length = if r.recType.IsCall then 2 else 1 := by
  rw [addresses]
  split_ifs <;> rfl

def lastAddress : ADDRESS := if r.recType.IsCall then r.call_site else r.this_fn

def xored (last : ADDRESS) : PerfRecord :=
  { r with this_fn := last ^^^ r.this_fn, call_site := last ^^^ r.this_fn ^^^ r.call_site }

end PerfRecord

def xorRecords : ADDRESS → List PerfRecord → List PerfRecord
  | _, [] => []
  | last, r :: rs => r.xored last :: xorRecords (r.xored last).lastAddress rs

def plainEvents (mask : BitVec 32) (rs : List PerfRecord) : List PerfEvent :=
  rs.flatMap fun r => r.event :: (bitsFrom mask 0).map fun i => .cntr r.pc i (r.newCntrVal i)

theorem xorRecords_addresses (last : ADDRESS) (rs : List PerfRecord) :
    (xorRecords last rs).flatMap PerfRecord.addresses = xorScan last
    (rs.flatMap PerfRecord.addresses) := by
  induction rs generalizing last with
  | nil => rfl
  | cons r rs ih =>
    rw [xorRecords, List.flatMap_cons, ih, List.flatMap_cons]
    by_cases hcall : r.recType.IsCall
    · have haddr : r.addresses = [r.this_fn, r.call_site] := if_pos hcall
      have haddr' : (r.xored last).addresses = [last ^^^ r.this_fn, last ^^^ r.this_fn ^^^
        r.call_site] := if_pos hcall
      have hlast : (r.xored last).lastAddress = last ^^^ r.this_fn ^^^ r.call_site := if_pos hcall
      rw [haddr, haddr', hlast]
      rfl
    · have haddr : r.addresses = [r.this_fn] := if_neg hcall
      have haddr' : (r.xored last).addresses = [last ^^^ r.this_fn] := if_neg hcall
      have hlast : (r.xored last).lastAddress = last ^^^ r.this_fn := if_neg hcall
      rw [haddr, haddr', hlast]
      rfl

theorem PerfRecord.event_congr {r r' : PerfRecord} (htype : r.recType = r'.recType)
    (h : r.addresses = r'.addresses) :
    r.event = r'.event ∧ r.pc = r'.pc := by
  have hpair : r.recType.IsCall → r.this_fn = r'.this_fn ∧ r.call_site = r'.call_site := by
    intro hcall
    rw [addresses, addresses, if_pos hcall, if_pos (htype ▸ hcall)] at h
    exact ⟨(List.cons.inj h).1, (List.cons.inj (List.cons.inj h).2).1⟩
  have hsingle : ¬ r.recType.IsCall → r.this_fn = r'.this_fn := by
    intro hcall
    rw [addresses, addresses, if_neg hcall, if_neg (htype ▸ hcall)] at h
    exact (List.cons.inj h).1
  rw [event, event, pc, pc, ← htype]
  cases hr : r.recType with
  | funcEnter =>
    obtain ⟨hfn, hsite⟩ := hpair (.inl hr)
    rw [hfn, hsite]
    exact ⟨rfl, rfl⟩
  | funcExit =>
    obtain ⟨hfn, hsite⟩ := hpair (.inr hr)
    rw [hfn, hsite]
    exact ⟨rfl, rfl⟩
  | manual =>
    rw [hsingle (by rw [hr]; decide)]
    exact ⟨rfl, rfl⟩
  | isr =>
    rw [hsingle (by rw [hr]; decide)]
    exact ⟨rfl, rfl⟩

theorem plainEvents_xor {mask : BitVec 32} {last : ADDRESS} {rs : List PerfRecord}
    (h : (xorRecords last rs).flatMap PerfRecord.addresses = rs.flatMap PerfRecord.addresses) :
    plainEvents mask (xorRecords last rs) = plainEvents mask rs := by
  induction rs generalizing last with
  | nil => rfl
  | cons r rs ih =>
    rw [xorRecords, List.flatMap_cons, List.flatMap_cons] at h
    have hlen : (r.xored last).addresses.length = r.addresses.length := by
      rw [PerfRecord.length_addresses, PerfRecord.length_addresses]
      rfl
    obtain ⟨haddr, hrest⟩ := List.append_inj h hlen
    have htype : (r.xored last).recType = r.recType := rfl
    obtain ⟨hevent, hpc⟩ := PerfRecord.event_congr htype haddr
    rw [xorRecords, plainEvents, List.flatMap_cons, hevent, hpc, plainEvents, List.flatMap_cons]
    exact congrArg _ (ih hrest)

namespace PerfTracer

variable {t : PerfTracer}

def Bounded (mask : BitVec 32) (rs : List PerfRecord) : Prop :=
  ∀ r ∈ rs, ∀ i ∈ bitsFrom mask 0, (r.newCntrVal i).toNat < 2 ^ 48

def Rising (mask : BitVec 32) (rs : List PerfRecord) : Prop :=
  rs.IsChain fun r r' => ∀ i ∈ bitsFrom mask 0, r.newCntrVal i ≤ r'.newCntrVal i

theorem recordEvents_raw (htype : t.perfCountType = .raw) (prev : ℕ → BitVec 64)
    {rs : List PerfRecord}
    (hbounded : Bounded t.perfCntrMask rs) :
    t.recordEvents prev rs = plainEvents t.perfCntrMask rs := by
  induction rs generalizing prev with
  | nil => rfl
  | cons r rs ih =>
    obtain ⟨hr, hrs⟩ := List.forall_mem_cons.mp hbounded
    have hcounts : ((bitsFrom t.perfCntrMask 0).map fun i => PerfEvent.cntr r.pc i
        (low48 (t.sent r i (prev i)))) = (bitsFrom t.perfCntrMask 0).map fun i => .cntr r.pc i
          (r.newCntrVal i) := by
      refine List.map_congr_left fun i hi => ?_
      rw [sent, htype, low48_of_lt (hr i hi)]
    rw [recordEvents, hcounts, ih _ hrs]
    rfl

/-- The counters of a record that are sent as exclusive ors are shown with their values. -/
theorem events_counts_xor (htype : t.perfCountType = .deltaXOR) {r : PerfRecord}
    {prev : ℕ → BitVec 64} {is : List ℕ}
    (his : is.Nodup) (hle : ∀ i ∈ is, prev i ≤ r.newCntrVal i)
    (hlt : ∀ i ∈ is, (r.newCntrVal i).toNat < 2 ^ 48)
    {v : PerfView} (hv : ∀ i ∈ is, v.counts i = prev i) :
    PerfField.events t.perfCountType v (is.map fun i => .count i (t.sent r i (prev i))) =
        is.map (fun i => .cntr v.pc i (r.newCntrVal i)) ∧
      PerfField.view t.perfCountType v (is.map fun i => .count i (t.sent r i (prev i))) =
        { v with counts := fun i => if i ∈ is then r.newCntrVal i else v.counts i } := by
  induction is generalizing v with
  | nil => exact ⟨rfl, rfl⟩
  | cons i is ih =>
    obtain ⟨hi, his⟩ := List.nodup_cons.mp his
    obtain ⟨hlei, hle⟩ := List.forall_mem_cons.mp hle
    obtain ⟨hlti, hlt⟩ := List.forall_mem_cons.mp hlt
    obtain ⟨hvi, hv⟩ := List.forall_mem_cons.mp hv
    have hold : (prev i).toNat < 2 ^ 48 := Nat.lt_of_le_of_lt hlei hlti
    have hsent : low48 (t.sent r i (prev i)) = r.newCntrVal i ^^^ prev i := by
      simp only [sent, htype, if_pos hlei]
      refine low48_of_lt ?_
      rw [BitVec.toNat_xor]
      exact Nat.xor_lt_two_pow hlti hold
    have hshown : shown t.perfCountType (v.counts i) (low48 (t.sent r i (prev i))) =
        r.newCntrVal i := by
      rw [shown, if_pos htype, hsent, hvi, BitVec.xor_comm (r.newCntrVal i), ← BitVec.xor_assoc,
        BitVec.xor_self, BitVec.zero_xor]
    have hv' : ∀ j ∈ is, Function.update v.counts i (r.newCntrVal i) j = prev j := fun j hj => by
      have hne : j ≠ i := fun h => hi (by rw [← h]; exact hj)
      rw [Function.update_of_ne hne, hv j hj]
    obtain ⟨hevents, hview⟩ :=
      ih his hle hlt (v := { v with counts := Function.update v.counts i (r.newCntrVal i) }) hv'
    have hnext : (PerfField.count i (t.sent r i (prev i))).next t.perfCountType v =
        { v with counts := Function.update v.counts i (r.newCntrVal i) } := by
      rw [PerfField.next, hshown]
    constructor
    · rw [List.map_cons, PerfField.events, hnext, hevents, PerfField.event, hshown]
      rfl
    · rw [List.map_cons, PerfField.view, List.foldl_cons, hnext]
      refine hview.trans ?_
      congr 1
      funext j
      by_cases hj : j = i
      · subst hj
        simp only [hi, if_false, Function.update_self, List.mem_cons_self, if_true]
      · simp only [Function.update_of_ne hj, List.mem_cons, hj, false_or]

theorem next_head_xor (htype : t.perfCountType = .deltaXOR) (r : PerfRecord) (v : PerfView) :
    (PerfField.head r.recType r.this_fn r.call_site).next t.perfCountType v =
      ⟨(r.xored v.last).lastAddress, (r.xored v.last).pc, v.counts⟩ := by
  have hshown : ∀ old value, shown t.perfCountType old value = old ^^^ value :=
    fun old value => if_pos htype
  obtain ⟨recType, fn, site, ts, hpm⟩ := r
  simp only [PerfField.next, hshown]
  cases recType <;> rfl

/-- The events of exclusive ors are those of the records with their addresses as they are shown. -/
theorem events_fields_xor (htype : t.perfCountType = .deltaXOR) {rs : List PerfRecord}
    (hbounded : Bounded t.perfCntrMask rs) (hrising : Rising t.perfCntrMask rs)
    {prev : ℕ → BitVec 64}
    (hfirst : ∀ r ∈ rs.head?, ∀ i ∈ bitsFrom t.perfCntrMask 0, prev i ≤ r.newCntrVal i)
    {v : PerfView} (hv : ∀ i ∈ bitsFrom t.perfCntrMask 0, v.counts i = prev i) :
    PerfField.events t.perfCountType v (t.fields prev rs) = plainEvents t.perfCntrMask
      (xorRecords v.last rs) := by
  induction rs generalizing prev v with
  | nil => rfl
  | cons r rs ih =>
    obtain ⟨hr, hrs⟩ := List.forall_mem_cons.mp hbounded
    have hshown : ∀ old value, shown t.perfCountType old value = old ^^^ value :=
      fun old value => if_pos htype
    set head := PerfField.head r.recType r.this_fn r.call_site with hhead
    have hevent : head.event t.perfCountType v = (r.xored v.last).event := by
      simp only [hhead, PerfField.event, hshown]
      rfl
    have hnext : head.next t.perfCountType v = ⟨(r.xored v.last).lastAddress, (r.xored v.last).pc,
        v.counts⟩ :=
      next_head_xor htype r v
    obtain ⟨hcounts, hview⟩ :=
      events_counts_xor htype (nodup_bitsFrom t.perfCntrMask 0) (hfirst r rfl) hr
        (v := head.next t.perfCountType v) (by rw [hnext]; exact hv)
    have hkept : ∀ i ∈ bitsFrom t.perfCntrMask 0, t.kept r prev i = r.newCntrVal i := by
      intro i hi
      rw [kept, if_neg (by rw [htype]; decide), if_pos hi]
    have hrest : ∀ r' ∈ rs.head?, ∀ i ∈ bitsFrom t.perfCntrMask 0, t.kept r prev i ≤
        r'.newCntrVal i := by
      intro r' hr' i hi
      rw [hkept i hi]
      cases rs with
      | nil => cases hr'
      | cons q rs =>
        obtain rfl := Option.some.inj hr'
        exact (List.isChain_cons_cons.mp hrising).1 i hi
    rw [fields, PerfField.events_append, recordFields, ← hhead, PerfField.events, hevent, hcounts]
    have hviews : PerfField.view t.perfCountType v (head :: (bitsFrom t.perfCntrMask 0).map fun i =>
        .count i (t.sent r i (prev i))) = { head.next t.perfCountType v with
          counts := fun i => if i ∈ bitsFrom t.perfCntrMask 0 then r.newCntrVal i
            else (head.next t.perfCountType v).counts i } :=
      hview
    rw [hviews, ih hrs (List.IsChain.tail hrising) hrest, hnext]
    · rfl
    · intro i hi
      rw [hkept i hi]
      exact if_pos hi

/-! ### The last counter -/

variable (t) in
def keptAll (prev : ℕ → BitVec 64) (rs : List PerfRecord) : ℕ → BitVec 64 :=
  rs.foldl (fun prev r => t.kept r prev) prev

theorem fields_append (prev : ℕ → BitVec 64) (rs qs : List PerfRecord) :
    t.fields prev (rs ++ qs) = t.fields prev rs ++ t.fields (t.keptAll prev rs) qs := by
  induction rs generalizing prev with
  | nil => rfl
  | cons r rs ih =>
    rw [List.cons_append, fields, ih, fields, List.append_assoc]
    rfl

theorem lastWhole_recordFields (whole : Prop) (r : PerfRecord) (prev : ℕ → BitVec 64) :
    lastWhole whole (t.recordFields r prev) ↔
      ∀ j ∈ (bitsFrom t.perfCntrMask 0).getLast?, t.sent r j (prev j) >>> 32 ≠ 0 := by
  rw [recordFields, lastWhole_cons, lastWhole, List.getLast?_map]
  cases (bitsFrom t.perfCntrMask 0).getLast? with
  | none => exact iff_of_true trivial fun j hj => absurd hj (Option.not_mem_none j)
  | some j => exact ⟨fun h j' hj' => Option.some.inj hj' ▸ h, fun h => h j rfl⟩

/-- The last event is not pending where the last counter of the last record has a high half. -/
theorem lastWhole_fields (prev : ℕ → BitVec 64) (rs : List PerfRecord) :
    lastWhole True (t.fields prev rs) ↔ ∀ r ∈ rs.getLast?,
      ∀ j ∈ (bitsFrom t.perfCntrMask 0).getLast?,
      t.sent r j (t.keptAll prev rs.dropLast j) >>> 32 ≠ 0 := by
  rcases List.eq_nil_or_concat' rs with rfl | ⟨qs, r, rfl⟩
  · exact iff_of_true trivial fun r hr => absurd hr (Option.not_mem_none r)
  · have hlast : lastWhole True (t.fields prev qs ++ t.recordFields r (t.keptAll prev qs)) ↔
        lastWhole True (t.recordFields r (t.keptAll prev qs)) := by
      have hne : t.recordFields r (t.keptAll prev qs) ≠ [] := List.cons_ne_nil _ _
      rw [lastWhole, lastWhole, List.getLast?_append_of_ne_nil _ hne]
    rw [fields_append, fields, fields, List.append_nil, hlast, lastWhole_recordFields,
      List.getLast?_concat, List.dropLast_concat]
    exact ⟨fun h r' hr' => Option.some.inj hr' ▸ h, fun h => h r rfl⟩

def lastValue (rs : List PerfRecord) (i : ℕ) : BitVec 64 := rs.getLast?.elim 0 (·.newCntrVal i)

theorem keptAll_xor (htype : t.perfCountType = .deltaXOR) {prev : ℕ → BitVec 64} {i : ℕ}
    (hi : i ∈ bitsFrom t.perfCntrMask 0) (hprev : prev i = 0) (rs : List PerfRecord) :
    t.keptAll prev rs i = lastValue rs i := by
  rcases List.eq_nil_or_concat' rs with rfl | ⟨qs, r, rfl⟩
  · exact hprev
  · rw [keptAll, List.foldl_concat, kept, if_neg (by rw [htype]; decide), if_pos hi, lastValue,
      List.getLast?_concat]
    rfl

/-- The last counter of the last record is sent with a high half by both or by none. -/
def SameHalves (mask : BitVec 32) (rs : List PerfRecord) : Prop :=
  ∀ r ∈ rs.getLast?, ∀ j ∈ (bitsFrom mask 0).getLast?,
    r.newCntrVal j >>> 32 = 0 ∨ r.newCntrVal j >>> 32 ≠ lastValue rs.dropLast j >>> 32

theorem high_halves_iff {new old : BitVec 64} (hle : old ≤ new) :
    (new >>> 32 ≠ 0 ↔ (new ^^^ old) >>> 32 ≠ 0) ↔ new >>> 32 = 0 ∨ new >>> 32 ≠ old >>> 32 := by
  have hxor : (new ^^^ old) >>> 32 = 0 ↔ new >>> 32 = old >>> 32 := by
    rw [BitVec.ushiftRight_xor_distrib]
    exact BitVec.xor_eq_zero_iff
  have hzero : new >>> 32 = 0 → old >>> 32 = 0 := by
    intro h
    have hn := congrArg BitVec.toNat h
    have hle' : old.toNat ≤ new.toNat := hle
    refine BitVec.eq_of_toNat_eq ?_
    rw [BitVec.toNat_ushiftRight, Nat.shiftRight_eq_div_pow] at hn ⊢
    change old.toNat / 2 ^ 32 = 0
    change new.toNat / 2 ^ 32 = 0 at hn
    omega
  rw [ne_eq, ne_eq, hxor]
  by_cases h : new >>> 32 = 0
  · have hboth : new >>> 32 = old >>> 32 := h.trans (hzero h).symm
    exact iff_of_true (iff_of_false (not_not.mpr h) (not_not.mpr hboth)) (.inl h)
  · rw [iff_true_left h, or_iff_right h]

/-- That the last events are pending for both or for none. -/
theorem lastWhole_iff {u : PerfTracer} (htype : t.perfCountType = .raw)
    (hxor : u.perfCountType = .deltaXOR)
    (hmask : u.perfCntrMask = t.perfCntrMask) {rs : List PerfRecord}
    (hrising : Rising t.perfCntrMask rs)
    {prev : ℕ → BitVec 64} (hprev : ∀ i ∈ bitsFrom t.perfCntrMask 0, prev i = 0) :
    (lastWhole True (t.fields prev rs) ↔ lastWhole True (u.fields prev rs)) ↔
      SameHalves t.perfCntrMask rs := by
  have hraw : ∀ (r : PerfRecord) j old, t.sent r j old = r.newCntrVal j := fun r j old => by
    rw [sent, htype]
  rw [lastWhole_fields, lastWhole_fields, hmask, SameHalves]
  rcases List.eq_nil_or_concat' rs with rfl | ⟨qs, r, rfl⟩
  · simp only [List.getLast?_nil]
    have hnone : ∀ p : PerfRecord → Prop, ∀ r ∈ (none : Option PerfRecord), p r :=
      fun p r hr => absurd hr (Option.not_mem_none r)
    exact iff_of_true (iff_of_true (hnone _) (hnone _)) (hnone _)
  · rw [List.getLast?_concat, List.dropLast_concat]
    simp only [Option.mem_some_iff, forall_eq']
    cases hlast : (bitsFrom t.perfCntrMask 0).getLast? with
    | none =>
      have hnone : ∀ p : ℕ → Prop, ∀ j ∈ (none : Option ℕ), p j :=
        fun p j hj => absurd hj (Option.not_mem_none j)
      exact iff_of_true (iff_of_true (hnone _) (hnone _)) (hnone _)
    | some j =>
      have hj : j ∈ bitsFrom t.perfCntrMask 0 := List.mem_of_getLast? hlast
      have hle : lastValue qs j ≤ r.newCntrVal j := by
        rcases List.eq_nil_or_concat' qs with rfl | ⟨qs, q, rfl⟩
        · exact Nat.zero_le _
        · have hchain := (List.isChain_append.mp hrising).2.2 q (List.getLast?_concat ..) r rfl
          rw [lastValue, List.getLast?_concat]
          exact hchain j hj
      have hsent : u.sent r j (u.keptAll prev qs j) = r.newCntrVal j ^^^ lastValue qs j := by
        rw [keptAll_xor hxor (hmask ▸ hj) (hprev j hj)]
        simp only [sent, hxor, if_pos hle]
      simp only [Option.mem_some_iff, forall_eq', hraw, hsent]
      exact high_halves_iff hle

end PerfTracer

/-! ### Events of records -/

namespace PerfEvent

def IsRecord : PerfEvent → Bool
  | .cntType _ | .cntrMask _ | .cntrDef .. => false
  | .addr _ | .fnEntry .. | .fnExit .. | .cntr .. => true

def addresses : PerfEvent → List ADDRESS
  | .addr pc => [pc]
  | .fnEntry fnAddr callSite | .fnExit fnAddr callSite => [fnAddr, callSite]
  | .cntType _ | .cntrMask _ | .cntrDef .. | .cntr .. => []

end PerfEvent

theorem PerfRecord.event_addresses (r : PerfRecord) :
    r.event.addresses = r.addresses ∧ r.event.IsRecord = true := by
  rw [event, addresses]
  cases r.recType <;> exact ⟨rfl, rfl⟩

theorem filter_plainEvents (mask : BitVec 32) (rs : List PerfRecord) :
    (plainEvents mask rs).filter PerfEvent.IsRecord = plainEvents mask rs := by
  refine List.filter_eq_self.mpr (List.forall_mem_flatMap.mpr fun r _ => List.forall_mem_cons.mpr
    ⟨?_, ?_⟩)
  · exact r.event_addresses.2
  · exact List.forall_mem_map.mpr fun i _ => rfl

theorem plainEvents_addresses (mask : BitVec 32) (rs : List PerfRecord) :
    (plainEvents mask rs).flatMap PerfEvent.addresses = rs.flatMap PerfRecord.addresses := by
  rw [plainEvents, List.flatMap_assoc]
  refine List.flatMap_congr fun r _ => ?_
  have hcounts : ((bitsFrom mask 0).map fun i => PerfEvent.cntr r.pc i (r.newCntrVal i)).flatMap
      PerfEvent.addresses = [] :=
    List.flatMap_eq_nil_iff.mpr (List.forall_mem_map.mpr fun i _ => rfl)
  rw [List.flatMap_cons, hcounts, List.append_nil, r.event_addresses.1]

theorem length_plainEvents (mask : BitVec 32) (last : ADDRESS) (rs : List PerfRecord) :
    (plainEvents mask (xorRecords last rs)).length = (plainEvents mask rs).length := by
  induction rs generalizing last with
  | nil => rfl
  | cons r rs ih =>
    rw [xorRecords, plainEvents, List.flatMap_cons, List.length_append, plainEvents,
      List.flatMap_cons, List.length_append, List.length_cons, List.length_cons, List.length_map,
        List.length_map]
    exact congrArg _ (ih _)

namespace PerfTracer

variable {t : PerfTracer}

theorem filter_markerEvents : t.markerEvents.filter PerfEvent.IsRecord = [] := by
  have hcounters : ((bitsFrom t.perfCntrMask 0).map t.counterEvent).filter PerfEvent.IsRecord =
      [] := by
    refine List.filter_eq_nil_iff.mpr (List.forall_mem_map.mpr fun i _ => ?_)
    rw [counterEvent]
    split_ifs <;> exact Bool.false_ne_true
  exact hcounters

/-- What is emitted of two lists of equal length, with a counter or nothing pending of each. -/
theorem emitted_eq_iff {xs ys es fs : List PerfEvent} {a b : Option PerfEvent}
    (hx : es ++ a.toList = xs)
    (hy : fs ++ b.toList = ys) (hlen : xs.length = ys.length) (ha : ∀ e ∈ a, e.addresses = [])
    (hb : ∀ e ∈ b, e.addresses = [])
    (hdetermined : xs.flatMap PerfEvent.addresses = ys.flatMap PerfEvent.addresses → xs = ys) :
    es = fs ↔ xs = ys ∧ (a = none ↔ b = none) := by
  have hnone : ∀ {o : Option PerfEvent}, (∀ e ∈ o, e.addresses = []) →
      o.toList.flatMap PerfEvent.addresses = [] := by
    intro o ho
    cases o with
    | none => rfl
    | some e => exact (List.append_nil _).trans (ho e rfl)
  subst hx hy
  rw [List.length_append, List.length_append] at hlen
  constructor
  · rintro rfl
    refine ⟨hdetermined ?_, ?_⟩
    · rw [List.flatMap_append, List.flatMap_append, hnone ha, hnone hb]
    · cases a <;> cases b <;> simp at hlen ⊢
  · rintro ⟨heq, hab⟩
    refine List.append_inj_left' heq ?_
    cases a <;> cases b <;> simp at hab ⊢

def toXOR (t : PerfTracer) : PerfTracer := { t with perfCountType := .deltaXOR }

/-- The events of records that are emitted and the one that is pending. -/
theorem filter_emitted {es es' : List PerfEvent} {pending : Option PerfEvent}
    (hes' : es'.filter PerfEvent.IsRecord = es')
    (h : t.markerEvents ++ es' = es ++ pending.toList)
    (hpending : ∀ e ∈ pending, ∃ pc index val, e = .cntr pc index val) :
    es.filter PerfEvent.IsRecord ++ pending.toList = es' ∧ ∀ e ∈ pending, e.addresses = [] := by
  have hfilter := congrArg (List.filter PerfEvent.IsRecord) h
  have hkept : pending.toList.filter PerfEvent.IsRecord = pending.toList := by
    refine List.filter_eq_self.mpr fun e he => ?_
    obtain ⟨pc, index, val, rfl⟩ := hpending e (Option.mem_toList.mp he)
    rfl
  rw [List.filter_append, List.filter_append, filter_markerEvents, List.nil_append, hes',
    hkept] at hfilter
  refine ⟨hfilter.symm, fun e he => ?_⟩
  obtain ⟨pc, index, val, rfl⟩ := hpending e he
  rfl

/-- **Exclusive ors and raw counts** give the same events of records exactly when all addresses but
the last one sent are 0, and the last counter has a high half in both traces or in none. -/
theorem deltaXOR_agrees_iff (htype : t.perfCountType = .raw) {p q : PerfConverter} {coreId : ℕ}
    (hp : t.Serves p coreId)
    (hq : t.toXOR.Serves q coreId) (hdefined : t.CountersDefined)
    {prevCntrVal : Option (ℕ → BitVec 64)} (hprev : prevCntrVal = none → t.perfCntrMask = 0)
    (hzero : ∀ i ∈ bitsFrom t.perfCntrMask 0, prevCntrVal.getD (fun _ => 0) i = 0)
    {rs : List PerfRecord} (heven : Even rs)
    (hbounded : Bounded t.perfCntrMask rs) (hrising : Rising t.perfCntrMask rs)
    {ms ms' : List PerfReceived} (hms : t.Shows (t.perfEmitMarker ++ t.records prevCntrVal rs) ms)
    (hms' : t.toXOR.Shows (t.toXOR.perfEmitMarker ++ t.toXOR.records prevCntrVal rs) ms') :
    ∃ p' emitted q' emitted', p.run coreId ms = some (p', emitted) ∧ q.run coreId ms' = some
      (q', emitted') ∧
      ((emitted.map (·.event)).filter PerfEvent.IsRecord = (emitted'.map (·.event)).filter
        PerfEvent.IsRecord ↔
        (∀ a ∈ (rs.flatMap PerfRecord.addresses).dropLast, a = 0) ∧ SameHalves t.perfCntrMask
          rs) := by
  rw [t.records_eq hprev] at hms
  rw [t.toXOR.records_eq hprev] at hms'
  obtain ⟨p', emitted, pending, hrun, hevents, hpending, hwhole⟩ :=
    run_fields hp hdefined (follows_fields t heven _) hms
  obtain ⟨q', emitted', pending', hrun', hevents', hpending', hwhole'⟩ :=
    run_fields hq hdefined (follows_fields t.toXOR heven _) hms'
  have hfirst : ∀ r ∈ rs.head?, ∀ i ∈ bitsFrom t.perfCntrMask 0, prevCntrVal.getD (fun _ => 0) i ≤
      r.newCntrVal i := by
    intro r _ i hi
    rw [hzero i hi]
    exact Nat.zero_le _
  rw [events_fields (by rw [htype]; decide), recordEvents_raw htype _ hbounded] at hevents
  rw [events_fields_xor (t := t.toXOR) rfl hbounded hrising hfirst fun i hi =>
    (hzero i hi).symm] at hevents'
  change t.toXOR.markerEvents ++ plainEvents t.perfCntrMask (xorRecords 0 rs) = _ at hevents'
  obtain ⟨hemitted, hnone⟩ := filter_emitted (filter_plainEvents _ _) hevents hpending
  obtain ⟨hemitted', hnone'⟩ := filter_emitted (filter_plainEvents _ _) hevents' hpending'
  have haddresses : plainEvents t.perfCntrMask rs = plainEvents t.perfCntrMask (xorRecords 0 rs) ↔
      xorScan 0 (rs.flatMap PerfRecord.addresses) = rs.flatMap PerfRecord.addresses := by
    rw [← xorRecords_addresses]
    refine ⟨fun h => ?_, fun h => (plainEvents_xor h).symm⟩
    rw [← plainEvents_addresses t.perfCntrMask (xorRecords 0 rs), ← h, plainEvents_addresses]
  have hdetermined : (plainEvents t.perfCntrMask rs).flatMap PerfEvent.addresses =
      (plainEvents t.perfCntrMask (xorRecords 0 rs)).flatMap PerfEvent.addresses →
      plainEvents t.perfCntrMask rs = plainEvents t.perfCntrMask (xorRecords 0 rs) := by
    rw [plainEvents_addresses, plainEvents_addresses, haddresses, xorRecords_addresses]
    exact Eq.symm
  have hscan : xorScan 0 (rs.flatMap PerfRecord.addresses) = rs.flatMap PerfRecord.addresses ↔
      ∀ a ∈ (rs.flatMap PerfRecord.addresses).dropLast, a = 0 := by
    rw [xorScan_eq_iff]
    refine ⟨?_, fun h => .inr ⟨rfl, h⟩⟩
    rintro (h | h)
    · rw [h]
      exact List.forall_mem_nil _
    · exact h.2
  refine ⟨p', emitted, q', emitted', hrun, hrun', ?_⟩
  rw [emitted_eq_iff hemitted hemitted' (length_plainEvents _ _ _).symm hnone hnone' hdetermined,
    haddresses, hscan, hwhole, hwhole']
  exact and_congr_right' (lastWhole_iff (u := t.toXOR) htype rfl rfl hrising hzero)

/-- Two records, the first at address 0: they agree. -/
theorem deltaXOR_agrees_twice :
    let t := cycles .raw
    let rs : List PerfRecord :=
      [⟨.manual, 0, 0, 5, fun _ => 7⟩, ⟨.manual, 0x1000, 0, 9, fun _ => 12⟩]
    ∃ p' emitted q' emitted',
      t.converter.run 3 (t.received (t.perfEmitMarker ++ t.records (some fun _ => 0) rs)) =
        some (p', emitted) ∧
      t.toXOR.converter.run 3 (t.toXOR.received (t.toXOR.perfEmitMarker ++ t.toXOR.records
        (some fun _ => 0) rs)) = some (q', emitted') ∧
      (emitted.map (·.event)).filter PerfEvent.IsRecord = (emitted'.map (·.event)).filter
        PerfEvent.IsRecord := by
  intro t rs
  have hdefined : t.CountersDefined := fun _ _ => .inl rfl
  have hprev : (some fun _ => 0 : Option (ℕ → BitVec 64)) = none → t.perfCntrMask = 0 :=
    fun hnone => absurd hnone (Option.some_ne_none _)
  have hzero : ∀ i ∈ bitsFrom t.perfCntrMask 0, (some fun _ => 0 : Option (ℕ → BitVec 64)).getD
      (fun _ => 0) i = 0 :=
    fun _ _ => rfl
  have hbits : bitsFrom t.perfCntrMask 0 = [0] := by decide +kernel
  have heven : Even rs :=
    List.forall_mem_cons.mpr ⟨⟨by decide, fun _ => by decide⟩,
      List.forall_mem_singleton.mpr ⟨by decide, fun _ => by decide⟩⟩
  have hbounded : Bounded t.perfCntrMask rs := by
    unfold Bounded
    rw [hbits]
    decide
  have hrising : Rising t.perfCntrMask rs := by
    unfold Rising
    rw [hbits]
    decide
  have hzeros : ∀ a ∈ (rs.flatMap PerfRecord.addresses).dropLast, a = 0 :=
    List.forall_mem_singleton.mpr rfl
  have hhalves : SameHalves t.perfCntrMask rs := by
    unfold SameHalves
    rw [hbits]
    rintro r ⟨⟩ j ⟨⟩
    exact .inl rfl
  obtain ⟨p', emitted, q', emitted', hrun, hrun', hagree⟩ :=
    deltaXOR_agrees_iff rfl (serves_converter t 3) (serves_converter _ 3) hdefined hprev hzero heven
      hbounded hrising (shows_received _ _) (shows_received _ _)
  exact ⟨p', emitted, q', emitted', hrun, hrun', hagree.mpr ⟨hzeros, hhalves⟩⟩

/-- The call site of a function entry is shown as its exclusive or with the function, and a last
counter of which the high half has not changed is not shown. -/
theorem deltaXOR_call_site :
    let t := cycles .raw
    let run (t : PerfTracer) (rs : List PerfRecord) :=
      ((t.converter.run 0 (t.received (t.perfEmitMarker ++ t.records (some fun _ => 0) rs))).map
        fun r => (r.2.map (·.event)).filter PerfEvent.IsRecord)
    let entry : List PerfRecord := [⟨.funcEnter, 0x1000, 0x2000, 0, fun _ => 7⟩]
    let long : List PerfRecord :=
      [⟨.manual, 0, 0, 0, fun _ => 0x100000000⟩, ⟨.manual, 0, 0, 0, fun _ => 0x100000001⟩]
    run t entry = some [.fnEntry 0x1000 0x2000] ∧ run t.toXOR entry =
      some [.fnEntry 0x1000 0x3000] ∧ run t long = some [.addr 0, .cntr 0 0 0x100000000, .addr 0,
        .cntr 0 0 0x100000001] ∧
      run t.toXOR long = some [.addr 0, .cntr 0 0 0x100000000, .addr 0] := by
  decide +kernel

end PerfTracer

end TraceDecoder
