import Mathlib.Data.Nat.Digits.Defs
import TraceDecoder.NexusStream

/-!
# The fields of a stream

The slices of a field stand for a number, six bits a slice. The buffer of the unwrapper holds it bit
by bit.
-/

namespace TraceDecoder

def fieldValue (f : List Byte) : ℕ := Nat.ofDigits 64 (f.map fun b : Byte => (b >>> 2).toNat)

theorem fieldValue_nil : fieldValue [] = 0 := rfl

theorem fieldValue_cons (b : Byte) (f : List Byte) :
    fieldValue (b :: f) = (b >>> 2).toNat + 64 * fieldValue f := by
  rw [fieldValue, List.map_cons, Nat.ofDigits_cons]
  rfl

theorem fieldValue_singleton (b : Byte) : fieldValue [b] = (b >>> 2).toNat := by
  rw [fieldValue_cons, fieldValue_nil, Nat.mul_zero, Nat.add_zero]

theorem fieldValue_append (f g : List Byte) :
    fieldValue (f ++ g) = fieldValue f + 2 ^ (6 * f.length) * fieldValue g := by
  rw [fieldValue, List.map_append, Nat.ofDigits_append, List.length_map, pow_mul]
  rfl

theorem toNat_mdo (b : Byte) : (b >>> 2).toNat = b.toNat / 4 := by
  rw [BitVec.toNat_ushiftRight, Nat.shiftRight_eq_div_pow]

theorem mdo_lt (b : Byte) : (b >>> 2).toNat < 64 := by
  rw [toNat_mdo]
  have hb := b.isLt
  omega

theorem fieldValue_lt (f : List Byte) : fieldValue f < 2 ^ (6 * f.length) := by
  induction f with
  | nil => exact Nat.one_pos
  | cons b f ih =>
    have hb := mdo_lt b
    have hpow : 2 ^ (6 * (b :: f).length) = 64 * 2 ^ (6 * f.length) := by
      rw [List.length_cons, Nat.mul_succ, pow_add, mul_comm]
      rfl
    rw [fieldValue_cons, hpow]
    omega

/-! ### The buffer -/

theorem buf_get_bit_eq (buf : Buffer) (k : ℕ) :
    buf_get_bit buf k = (buf (k / 8)).getLsbD (k % 8) := by
  have hk : k % 8 < 8 := Nat.mod_lt k (by decide)
  rw [buf_get_bit, ← BitVec.twoPow_eq, BitVec.and_twoPow]
  cases (buf (k / 8)).getLsbD (k % 8) with
  | false => simp
  | true =>
    have hbit : BitVec.twoPow 8 (k % 8) ≠ 0#8 := by
      intro hzero
      have hset := congrArg (BitVec.getLsbD · (k % 8)) hzero
      simp [hk] at hset
    simpa using hbit

theorem buf_get_bit_set (buf : Buffer) (p : ℕ) (v : Bool) (k : ℕ) :
    buf_get_bit (buf_set_bit buf p v) k = if k = p then v else buf_get_bit buf k := by
  have hk : k % 8 < 8 := Nat.mod_lt k (by decide)
  have hp : p % 8 < 8 := Nat.mod_lt p (by decide)
  simp only [buf_get_bit_eq, buf_set_bit, ← BitVec.twoPow_eq]
  by_cases hbyte : k / 8 = p / 8
  · rw [if_pos hbyte, hbyte]
    by_cases hpos : k = p
    · rw [if_pos hpos, hpos]
      cases v <;> simp [hp]
    · have hmod : k % 8 ≠ p % 8 := by omega
      rw [if_neg hpos]
      cases v <;> simp [hk, hmod]
  · rw [if_neg hbyte, if_neg fun hpos => hbyte (by rw [hpos])]

theorem u8_to_buf_get (val : Byte) (numbits : ℕ) (buf : Buffer) (p k : ℕ) :
    buf_get_bit (u8_to_buf val numbits buf p) k =
      if p ≤ k ∧ k < p + numbits then val.getLsbD (k - p) else buf_get_bit buf k := by
  induction numbits generalizing val buf p with
  | zero => rw [u8_to_buf, if_neg (by omega)]
  | succ n ih =>
    have hlow : decide (val &&& 0x1 ≠ 0) = val.getLsbD 0 := by
      have hbit := buf_get_bit_eq (fun _ => val) 0
      exact hbit
    rw [u8_to_buf, ih, buf_get_bit_set, hlow, BitVec.getLsbD_ushiftRight]
    by_cases hk : k = p
    · subst hk
      rw [if_neg (by omega), if_pos rfl, if_pos ⟨le_rfl, by omega⟩, Nat.sub_self]
    · rw [if_neg hk]
      by_cases hin : p + 1 ≤ k ∧ k < p + 1 + n
      · have hpos : 1 + (k - (p + 1)) = k - p := by omega
        rw [if_pos hin, if_pos (by omega), hpos]
      · rw [if_neg hin, if_neg (by omega)]

/-- The bits of the buffer are those of `v`. -/
def Holds (buf : Buffer) (v : ℕ) : Prop := ∀ k, buf_get_bit buf k = v.testBit k

theorem holds_zero : Holds (fun _ => 0) 0 := by
  intro k
  rw [buf_get_bit_eq, Nat.zero_testBit]
  exact BitVec.getLsbD_zero

theorem Holds.u8_to_buf {buf : Buffer} {v p : ℕ} (h : Holds buf v) (hv : v < 2 ^ p) (b : Byte) :
    Holds (u8_to_buf (b >>> 2) 6 buf p) (v + 2 ^ p * (b >>> 2).toNat) := by
  intro k
  have hb := mdo_lt b
  rw [u8_to_buf_get, Nat.add_comm v, Nat.testBit_two_pow_mul_add _ hv, h k]
  by_cases hk : k < p
  · rw [if_neg (by omega), if_pos hk]
  · rw [if_neg hk, BitVec.testBit_toNat]
    by_cases hin : k < p + 6
    · rw [if_pos ⟨by omega, hin⟩]
    · have hhigh : v.testBit k = false :=
        Nat.testBit_lt_two_pow (hv.trans_le (Nat.pow_le_pow_right (by decide) (by omega)))
      have hmdo : (b >>> 2).getLsbD (k - p) = false := by
        rw [BitVec.getLsbD_ushiftRight]
        exact BitVec.getLsbD_of_ge b _ (by omega)
      rw [if_neg (by omega), hhigh, hmdo]

theorem getLsbD_shl64_bit (v : Bool) {n j : ℕ} (hn : n < 64) :
    (shl64 (if v then 1 else 0) n).getLsbD j = (decide (j = n) && v) := by
  rw [shl64, Nat.mod_eq_of_lt hn]
  cases v with
  | false => simp
  | true =>
    have hone : (if true = true then 1 else 0 : BitVec 64) <<< n = BitVec.twoPow 64 n :=
      (BitVec.twoPow_eq 64 n).symm
    rw [hone, BitVec.getLsbD_twoPow]
    simp [hn, eq_comm]

/-- What is read from the buffer, where no set bit is read that the word has no room for. -/
theorem Holds.buf_to_u64_mod {buf : Buffer} {v : ℕ} (h : Holds buf v) (p numbits : ℕ)
    (hroom : v / 2 ^ p % 2 ^ numbits < 2 ^ 64) :
    buf_to_u64 buf p numbits = BitVec.ofNat 64 (v / 2 ^ p % 2 ^ numbits) := by
  apply BitVec.eq_of_getLsbD_eq
  intro j hj
  rw [BitVec.getLsbD_ofNat, Nat.testBit_mod_two_pow, Nat.testBit_div_two_pow]
  simp only [hj, decide_true, Bool.true_and]
  induction numbits with
  | zero => simp [TraceDecoder.buf_to_u64]
  | succ n ih =>
    have hprefix : v / 2 ^ p % 2 ^ n < 2 ^ 64 := by
      refine Nat.lt_of_le_of_lt ?_ hroom
      rw [← Nat.mod_mod_of_dvd _ (pow_dvd_pow 2 n.le_succ)]
      exact Nat.mod_le _ _
    rw [TraceDecoder.buf_to_u64, BitVec.getLsbD_or, ih hprefix, h (p + n)]
    by_cases hn : n < 64
    · rw [getLsbD_shl64_bit _ hn]
      by_cases hjn : j = n
      · subst hjn
        simp [Nat.add_comm]
      · have hlt : (j < n + 1) = (j < n) := propext (by omega)
        simp [hjn, hlt]
    · have hhigh : v.testBit (p + n) = false := by
        have hbit : (v / 2 ^ p % 2 ^ (n + 1)).testBit n = false :=
          Nat.testBit_lt_two_pow (hroom.trans_le (Nat.pow_le_pow_right (by decide) (by omega)))
        rwa [Nat.testBit_mod_two_pow, Nat.testBit_div_two_pow, decide_eq_true n.lt_succ_self,
          Bool.true_and, Nat.add_comm] at hbit
      have hlt : j < n := by omega
      rw [hhigh]
      simp [shl64, hlt, Nat.lt_succ_of_lt hlt]

theorem Holds.buf_to_u64 {buf : Buffer} {v : ℕ} (h : Holds buf v) (p numbits : ℕ)
    (hroom : numbits ≤ 64 ∨ v / 2 ^ p < 2 ^ 64) :
    buf_to_u64 buf p numbits = BitVec.ofNat 64 (v / 2 ^ p % 2 ^ numbits) := by
  apply h.buf_to_u64_mod
  rcases hroom with hbits | hvalue
  · exact (Nat.mod_lt _ (Nat.two_pow_pos _)).trans_le (Nat.pow_le_pow_right (by decide) hbits)
  · exact (Nat.mod_le _ _).trans_lt hvalue

/-! ### The slices of a field -/

inductive FieldSlices (mark : Byte) : List Byte → Prop
  | last {b : Byte} (hmark : b &&& 0x3 = mark) : FieldSlices mark [b]
  | cons {b : Byte} {f : List Byte} (hmark : b &&& 0x3 = MSEO_NORMAL) (hf : FieldSlices mark f) :
    FieldSlices mark (b :: f)

namespace NexusMessageReassembler

theorem messageData_frame (r : NexusMessageReassembler) (numbits : ℕ) (data : Buffer)
    (overflowed : Bool) :
    ∃ lost dqm, r.messageData numbits data overflowed =
      { r with messageHasOverflowedField := lost, dqm := dqm } := by
  unfold messageData
  by_cases haccept : r.acceptingMessage = true
  · rw [if_pos haccept]
    by_cases hover : overflowed = true
    · rw [if_pos hover]
      exact ⟨_, _, rfl⟩
    · rw [if_neg hover]
      split <;> exact ⟨_, _, rfl⟩
  · rw [if_neg haccept]
    exact ⟨_, _, rfl⟩

theorem getMessage_none {r : NexusMessageReassembler} (h : r.messageReady = false) :
    r.getMessage = (none, r) := by
  rw [getMessage, h]
  rfl

end NexusMessageReassembler

namespace NexusStream

variable {ns : NexusStream} {f g : List Byte} {b : Byte}

theorem feed_cons {ns₁ ns₂ : NexusStream} {bs : List Byte}
    {got : Option NexusDataAcquisitionMessage}
    {ms : List NexusDataAcquisitionMessage} (hb : ns.appendByteAndCheckForMessage b = (got, ns₁))
    (hbs : ns₁.feed bs = (ms, ns₂)) : ns.feed (b :: bs) = (got.toList ++ ms, ns₂) := by
  rw [feed, hb]
  simp only [hbs]

theorem feed_append {ns₁ ns₂ : NexusStream} {bs cs : List Byte}
    {ms ms' : List NexusDataAcquisitionMessage}
    (hbs : ns.feed bs = (ms, ns₁)) (hcs : ns₁.feed cs = (ms', ns₂)) :
    ns.feed (bs ++ cs) = (ms ++ ms', ns₂) := by
  induction bs generalizing ns ms with
  | nil =>
    obtain ⟨rfl, rfl⟩ := Prod.mk.inj hbs
    exact hcs
  | cons b bs ih =>
    rcases hb : ns.appendByteAndCheckForMessage b with ⟨got, ns₃⟩
    rcases hrest : ns₃.feed bs with ⟨ms₃, ns₄⟩
    rw [feed_cons hb hrest] at hbs
    obtain ⟨rfl, rfl⟩ := Prod.mk.inj hbs
    rw [List.cons_append, feed_cons hb (ih hrest), List.append_assoc]

/-- The unwrapper is inside a message and holds the slices `f` of the field that has begun. -/
structure Collecting (ns : NexusStream) (f : List Byte) : Prop where
  inMessage : ns.unwrapper.inMessage = true
  data : Holds ns.unwrapper.data (fieldValue f)
  datanumbits : ns.unwrapper.datanumbits = 6 * f.length
  dataoverflowed : ns.unwrapper.dataoverflowed = false
  messageReady : ns.reassembler.messageReady = false

theorem Collecting.collect (h : ns.Collecting f) (hroom : f.length < 5461) (b : Byte) :
    Holds (ns.unwrapper.collect (b >>> 2)).data (fieldValue (f ++ [b])) ∧
      (ns.unwrapper.collect (b >>> 2)).datanumbits = 6 * (f ++ [b]).length ∧
      (ns.unwrapper.collect (b >>> 2)).dataoverflowed = false ∧
      (ns.unwrapper.collect (b >>> 2)).inMessage = true := by
  have hfree : 6 * f.length < MAX_DATA * 8 - 6 := by
    rw [MAX_DATA]
    omega
  have hvalue : fieldValue (f ++ [b]) = fieldValue f + 2 ^ (6 * f.length) * (b >>> 2).toNat := by
    rw [fieldValue_append, fieldValue_singleton]
  rw [NexusSliceUnwrapper.collect, h.datanumbits, if_pos hfree, hvalue, List.length_append]
  exact ⟨h.data.u8_to_buf (fieldValue_lt f) b, rfl, h.dataoverflowed, h.inMessage⟩

theorem Collecting.slice (h : ns.Collecting f) (hroom : f.length < 5461)
    (hmark : b &&& 0x3 = MSEO_NORMAL) :
    ∃ ns', ns.appendByteAndCheckForMessage b = (none, ns') ∧ ns'.Collecting (f ++ [b]) ∧
      ns'.reassembler = ns.reassembler := by
  obtain ⟨hdata, hbits, hover, hin⟩ := h.collect hroom b
  have happend : ns.appendByte b = ⟨ns.reassembler, ns.unwrapper.collect (b >>> 2)⟩ := by
    have hzero : b &&& 0x3 = 0 := hmark
    simp only [appendByte, hzero, h.inMessage, Bool.true_eq_false, false_and, if_false, if_true,
      ne_eq, not_true_eq_false]
  refine ⟨⟨ns.reassembler, ns.unwrapper.collect (b >>> 2)⟩, ?_,
    ⟨hin, hdata, hbits, hover, h.messageReady⟩, rfl⟩
  rw [appendByteAndCheckForMessage, happend]
  simp only [NexusMessageReassembler.getMessage_none h.messageReady]

theorem Collecting.fieldEnd (h : ns.Collecting f) (hroom : f.length < 5461)
    (hmark : b &&& 0x3 = MSEO_VAR_END) :
    ∃ ns' data, ns.appendByteAndCheckForMessage b = (none, ns') ∧ ns'.Collecting [] ∧
      Holds data (fieldValue (f ++ [b])) ∧
      ns'.reassembler = (ns.reassembler.messageData (6 * (f ++ [b]).length) data
          false).endField := by
  obtain ⟨hdata, hbits, hover, hin⟩ := h.collect hroom b
  have hone : b &&& 0x3 = 1 := hmark
  set u := ns.unwrapper.collect (b >>> 2) with hu
  set r := (ns.reassembler.messageData (6 * (f ++ [b]).length) u.data false).endField with hr
  have happend : ns.appendByte b = ⟨r, u.emptyData⟩ := by
    simp only [appendByte, hone, h.inMessage, ← hu, hbits, hover, Bool.true_eq_false, false_and,
      if_false, if_true]
    rfl
  have hready : r.messageReady = false := by
    obtain ⟨lost, dqm, hframe⟩ :=
      ns.reassembler.messageData_frame (6 * (f ++ [b]).length) u.data false
    rw [hr, hframe]
    exact h.messageReady
  refine ⟨⟨r, u.emptyData⟩, u.data, ?_, ⟨hin, holds_zero, rfl, rfl, hready⟩, hdata, rfl⟩
  rw [appendByteAndCheckForMessage, happend]
  simp only [NexusMessageReassembler.getMessage_none hready]

theorem Collecting.messageEnd (h : ns.Collecting f) (hroom : f.length < 5461)
    (hmark : b &&& 0x3 = MSEO_END) :
    ∃ data, Holds data (fieldValue (f ++ [b])) ∧
      let r := (ns.reassembler.messageData (6 * (f ++ [b]).length) data false).endField.endMessage
      ns.appendByteAndCheckForMessage b = (r.getMessage.1, ⟨r.getMessage.2, .init⟩) := by
  obtain ⟨hdata, hbits, hover, hin⟩ := h.collect hroom b
  have hthree : b &&& 0x3 = 3 := hmark
  set u := ns.unwrapper.collect (b >>> 2) with hu
  refine ⟨u.data, hdata, ?_⟩
  intro r
  have happend : ns.appendByte b = ⟨r, .init⟩ := by
    simp only [appendByte, hthree, h.inMessage, ← hu, hbits, hover, Bool.true_eq_false, false_and,
      if_false, if_true]
    rfl
  rw [appendByteAndCheckForMessage, happend]

theorem feed_field (h : ns.Collecting g) (hf : FieldSlices MSEO_VAR_END f)
    (hroom : (g ++ f).length ≤ 5461) :
    ∃ ns' data, ns.feed f = ([], ns') ∧ ns'.Collecting [] ∧ Holds data (fieldValue (g ++ f)) ∧
      ns'.reassembler = (ns.reassembler.messageData (6 * (g ++ f).length) data false).endField := by
  induction hf generalizing ns g with
  | last hmark =>
    rw [List.length_append, List.length_singleton] at hroom
    obtain ⟨ns', data, happend, hcollect, hdata, hr⟩ := h.fieldEnd (by omega) hmark
    exact ⟨ns', data, feed_cons happend rfl, hcollect, hdata, hr⟩
  | @cons b f hmark _ ih =>
    obtain ⟨ns₁, happend, hcollect, hr⟩ :=
      h.slice (by rw [List.length_append, List.length_cons] at hroom; omega) hmark
    have hassoc : g ++ b :: f = g ++ [b] ++ f := by rw [List.append_assoc, List.singleton_append]
    rw [hassoc] at hroom ⊢
    obtain ⟨ns', data, hfeed, hrest⟩ := ih hcollect hroom
    rw [hr] at hrest
    exact ⟨ns', data, feed_cons happend hfeed, hrest⟩

theorem feed_lastField (h : ns.Collecting g) (hf : FieldSlices MSEO_END f)
    (hroom : (g ++ f).length ≤ 5461) :
    ∃ data, Holds data (fieldValue (g ++ f)) ∧
      let r := (ns.reassembler.messageData (6 * (g ++ f).length) data false).endField.endMessage
      ns.feed f = (r.getMessage.1.toList, ⟨r.getMessage.2, .init⟩) := by
  induction hf generalizing ns g with
  | last hmark =>
    rw [List.length_append, List.length_singleton] at hroom
    obtain ⟨data, hdata, happend⟩ := h.messageEnd (by omega) hmark
    have hfeed := feed_cons happend (rfl : feed _ [] = ([], _))
    rw [List.append_nil] at hfeed
    exact ⟨data, hdata, hfeed⟩
  | @cons b f hmark _ ih =>
    obtain ⟨ns₁, happend, hcollect, hr⟩ :=
      h.slice (by rw [List.length_append, List.length_cons] at hroom; omega) hmark
    have hassoc : g ++ b :: f = g ++ [b] ++ f := by rw [List.append_assoc, List.singleton_append]
    rw [hassoc] at hroom ⊢
    obtain ⟨data, hdata, hfeed⟩ := ih hcollect hroom
    rw [hr] at hfeed
    exact ⟨data, hdata, feed_cons happend hfeed⟩

end NexusStream

end TraceDecoder
