import TraceDecoder.StreamMessages

/-!
# The message stream builder

`SwtMessageStreamBuilder` packs data acquisition messages into slices. What it has written of a
field is a number of bits and their value; a `NexusStream` that is fed the slices delivers the
messages again.
-/

namespace TraceDecoder

structure SwtMessageStreamBuilder where
  curslice : Byte
  cursliceOffset : ℕ
  slices : List Byte
  deriving DecidableEq, Repr

namespace SwtMessageStreamBuilder

def beginMessage (sb : SwtMessageStreamBuilder) : SwtMessageStreamBuilder :=
  { sb with curslice := 0, cursliceOffset := 2 }

def flushSlice (sb : SwtMessageStreamBuilder) : SwtMessageStreamBuilder where
  curslice := 0
  cursliceOffset := 2
  slices := sb.slices ++ [sb.curslice]

/-- The loop of `append`. A pass that takes no bit flushes the slice, and the
one behind it takes some. -/
def appendLoop : ℕ → SwtMessageStreamBuilder → BitVec 64 → ℕ → SwtMessageStreamBuilder
  | 0, sb, _, _ => sb
  | fuel + 1, sb, val, left =>
    if left = 0 then sb
    else
      let chunk := min left (8 - sb.cursliceOffset)
      let mask := intBit chunk - 1
      let sb := if sb.cursliceOffset = 8 then sb.flushSlice else sb
      let sb := { sb with
        curslice := sb.curslice ||| ((val &&& mask.signExtend 64) <<< sb.cursliceOffset).setWidth 8
        cursliceOffset := sb.cursliceOffset + chunk }
      appendLoop fuel sb (val >>> chunk) (left - chunk)

def append (sb : SwtMessageStreamBuilder) (val : BitVec 64) (numbits : ℕ) :
    SwtMessageStreamBuilder :=
  appendLoop (2 * numbits) sb val numbits

def appendFixedField (sb : SwtMessageStreamBuilder) (val : BitVec 64) (numbits : ℕ)
    (endOfMessage : Bool) :
    SwtMessageStreamBuilder :=
  let sb := sb.append val numbits
  if endOfMessage then { sb with curslice := sb.curslice ||| 0x3 }.flushSlice else sb

/-- The mask is an `int`: its shift count is taken modulo 32 and it is sign-extended. -/
def minBitsLoop (val : BitVec 64) : ℕ → ℕ
  | 0 => 0
  | bit + 1 => if val &&& (intBit bit).signExtend 64 = 0 then minBitsLoop val bit else bit + 1

def minBits (val : BitVec 64) (numbits : ℕ) : ℕ := max (minBitsLoop val numbits) 1

def appendVarField (sb : SwtMessageStreamBuilder) (val : BitVec 64) (numbits : ℕ)
    (endOfMessage : Bool) :
    SwtMessageStreamBuilder :=
  let sb := sb.append val (minBits val numbits)
  { sb with curslice := sb.curslice ||| if endOfMessage then 0x3 else 0x1 }.flushSlice

def addDataAcquisitionMessage (sb : SwtMessageStreamBuilder) (srcbits : ℕ) (src itcIdx : BitVec 32)
    (size : ℕ)
    (data : BitVec 32) (haveTimestamp : Bool) (timestamp : BitVec 64) : SwtMessageStreamBuilder :=
  -- the product of the `int` wraps
  let tag := itcIdx * 4
  let tag := if size = 2 then tag + 2 else if size = 1 then tag + 3 else tag
  let sb := sb.beginMessage
  let sb := sb.appendFixedField 0x7 6 false
  let sb := sb.appendFixedField (src.signExtend 64) srcbits false
  let sb := sb.appendVarField (tag.setWidth 64) 32 false
  let sb := sb.appendVarField (data.setWidth 64) (size * 8) (!haveTimestamp)
  if haveTimestamp then sb.appendVarField timestamp 64 true else sb

/-! ### The width of a field -/

variable {val : BitVec 64}

theorem toNat_lt_of_bit {bit : ℕ} (hval : val.toNat < 2 ^ (bit + 1))
    (hbit : val.getLsbD bit = false) :
    val.toNat < 2 ^ bit := by
  rw [← BitVec.testBit_toNat, Nat.testBit_eq_decide_div_mod_eq, decide_eq_false_iff_not] at hbit
  have hdiv : val.toNat / 2 ^ bit < 2 := by
    rw [Nat.div_lt_iff_lt_mul (Nat.two_pow_pos _), mul_comm]
    exact hval
  refine (Nat.div_eq_zero_iff_lt (Nat.two_pow_pos _)).mp ?_
  generalize val.toNat / 2 ^ bit = quotient at hbit hdiv ⊢
  omega

theorem getLsbD_of_mask {bit i : ℕ} (hmask : val &&& (intBit bit).signExtend 64 = 0)
    (hi : ((intBit bit).signExtend 64).getLsbD i = true) : val.getLsbD i = false := by
  have hand := congrArg (BitVec.getLsbD · i) hmask
  simpa [hi] using hand

/-- The mask of bit 31, and of bit 63, has all bits from 31 on. -/
theorem toNat_lt_of_signMask {bit : ℕ} (hbit : bit % 32 = 31)
    (hmask : val &&& (intBit bit).signExtend 64 = 0) :
    val.toNat < 2 ^ 31 := by
  apply Nat.lt_pow_two_of_testBit
  intro i hi
  rw [BitVec.testBit_toNat]
  by_cases hlt : i < 64
  · apply getLsbD_of_mask hmask
    have hmasks : ∀ i < 64, 31 ≤ i → ((1#32 <<< 31).signExtend 64).getLsbD i = true := by decide
    rw [intBit, hbit]
    exact hmasks i hlt hi
  · exact BitVec.getLsbD_of_ge val i (by omega)

theorem toNat_lt_minBitsLoop {numbits : ℕ} (hval : val.toNat < 2 ^ numbits)
    (hwidth : numbits ≤ 32 ∨ numbits = 64 ∨ val.toNat < 2 ^ 31) :
    val.toNat < 2 ^ minBitsLoop val numbits := by
  induction numbits with
  | zero => exact hval
  | succ bit ih =>
    rw [minBitsLoop]
    split_ifs with hmask
    · by_cases hsign : bit % 32 = 31
      · have hlow := toNat_lt_of_signMask hsign hmask
        exact ih (hlow.trans_le (Nat.pow_le_pow_right (by decide) (by omega))) (.inr (.inr hlow))
      · by_cases hlow : val.toNat < 2 ^ 31 ∧ 31 ≤ bit
        · exact ih (hlow.1.trans_le (Nat.pow_le_pow_right (by decide) hlow.2)) (.inr (.inr hlow.1))
        · have hsmall : bit < 31 := by
            by_contra hge
            rcases hwidth with h | h | h
            · omega
            · omega
            · exact hlow ⟨h, by omega⟩
          have hset : ((intBit bit).signExtend 64).getLsbD bit = true := by
            have hmasks : ∀ bit < 31, ((intBit bit).signExtend 64).getLsbD bit = true := by decide
            exact hmasks bit hsmall
          exact ih (toNat_lt_of_bit hval (getLsbD_of_mask hmask hset)) (.inl (by omega))
    · exact hval

theorem minBitsLoop_le (val : BitVec 64) (numbits : ℕ) : minBitsLoop val numbits ≤ numbits := by
  induction numbits with
  | zero => exact le_rfl
  | succ bit ih =>
    rw [minBitsLoop]
    split_ifs
    · exact ih.trans (Nat.le_succ bit)
    · exact le_rfl

/-! ### What has been written of a field -/

/-- Behind the slices `done` stand `width` bits of a field, the last of them in `curslice`. -/
structure Writing (sb : SwtMessageStreamBuilder) (done : List Byte) (width value : ℕ) : Prop where
  slices : ∃ pre, sb.slices = done ++ pre ∧ (∀ b ∈ pre, b &&& 0x3 = MSEO_NORMAL) ∧
    width = 6 * pre.length + (sb.cursliceOffset - 2) ∧ value = fieldValue (pre ++ [sb.curslice])
  offset : 2 ≤ sb.cursliceOffset ∧ sb.cursliceOffset ≤ 8
  mark : sb.curslice &&& 0x3 = MSEO_NORMAL
  curslice : sb.curslice.toNat < 2 ^ sb.cursliceOffset

theorem and_three_eq_iff (b : Byte) : b &&& 0x3 = MSEO_NORMAL ↔ b.toNat % 4 = 0 := by
  rw [← BitVec.toNat_inj, BitVec.toNat_and]
  exact Eq.congr_left (Nat.and_two_pow_sub_one_eq_mod b.toNat 2)

theorem toNat_chunk (val : BitVec 64) {chunk offset : ℕ} (hoffset : 2 ≤ offset)
    (hchunk : offset + chunk ≤ 8) :
    (((val &&& (intBit chunk - 1).signExtend 64) <<< offset).setWidth 8 : Byte).toNat =
      2 ^ offset * (val.toNat % 2 ^ chunk) := by
  have hmasks : ∀ chunk < 7, ((intBit chunk - 1).signExtend 64).toNat = 2 ^ chunk - 1 := by decide
  have hlow : (val &&& (intBit chunk - 1).signExtend 64).toNat = val.toNat % 2 ^ chunk := by
    rw [BitVec.toNat_and, hmasks chunk (by omega), Nat.and_two_pow_sub_one_eq_mod]
  have hlt : 2 ^ offset * (val.toNat % 2 ^ chunk) < 2 ^ 8 :=
    calc 2 ^ offset * (val.toNat % 2 ^ chunk) < 2 ^ offset * 2 ^ chunk :=
          Nat.mul_lt_mul_of_pos_left (Nat.mod_lt _ (Nat.two_pow_pos _)) (Nat.two_pow_pos _)
      _ = 2 ^ (offset + chunk) := (pow_add ..).symm
      _ ≤ 2 ^ 8 := Nat.pow_le_pow_right (by decide) hchunk
  rw [BitVec.toNat_setWidth, BitVec.toNat_shiftLeft, hlow, Nat.shiftLeft_eq, mul_comm (_ % _)]
  rw [Nat.mod_mod_of_dvd _ (by decide : 2 ^ 8 ∣ 2 ^ 64), Nat.mod_eq_of_lt hlt]

variable {sb : SwtMessageStreamBuilder} {done : List Byte} {width value : ℕ}

theorem Writing.flush (h : sb.Writing done width value) (hfull : sb.cursliceOffset = 8) :
    sb.flushSlice.Writing done width value := by
  obtain ⟨⟨pre, hslices, hpre, hwidth, hvalue⟩, -, hmark, -⟩ := h
  refine ⟨⟨pre ++ [sb.curslice], ?_, ?_, ?_, ?_⟩, ⟨le_rfl, (by decide : 2 ≤ 8)⟩,
    (by decide : (0 : Byte) &&& 0x3 = MSEO_NORMAL), (by decide : (0 : Byte).toNat < 2 ^ 2)⟩
  · rw [flushSlice, hslices, List.append_assoc]
  · intro b hb
    rcases List.mem_append.mp hb with hb | hb
    · exact hpre b hb
    · rw [List.mem_singleton.mp hb]
      exact hmark
  · rw [List.length_append, List.length_singleton, hwidth, hfull]
    rfl
  · have hzero : (sb.flushSlice.curslice >>> 2).toNat = 0 :=
      (by decide : ((0 : Byte) >>> 2).toNat = 0)
    rw [fieldValue_append (pre ++ [sb.curslice]), ← hvalue, fieldValue_singleton, hzero,
      Nat.mul_zero, Nat.add_zero]

theorem Writing.chunk (h : sb.Writing done width value) (val : BitVec 64) (chunk : ℕ)
    (hchunk : sb.cursliceOffset + chunk ≤ 8) :
    { sb with
      curslice := sb.curslice ||| ((val &&& (intBit chunk - 1).signExtend 64) <<<
          sb.cursliceOffset).setWidth 8
      cursliceOffset := sb.cursliceOffset + chunk }.Writing done (width + chunk)
        (value + 2 ^ width * (val.toNat % 2 ^ chunk)) := by
  obtain ⟨⟨pre, hslices, hpre, hwidth, hvalue⟩, ⟨hge, hle⟩, hmark, hlt⟩ := h
  have hbits := toNat_chunk val hge hchunk
  set bits : Byte := ((val &&& (intBit chunk - 1).signExtend 64) <<< sb.cursliceOffset).setWidth 8
  have hor : (sb.curslice ||| bits).toNat = sb.curslice.toNat + 2 ^ sb.cursliceOffset *
      (val.toNat % 2 ^ chunk) := by
    rw [BitVec.toNat_or, hbits, Nat.or_comm, ← Nat.two_pow_add_eq_or_of_lt hlt, Nat.add_comm]
  have hquarter : 2 ^ sb.cursliceOffset = 4 * 2 ^ (sb.cursliceOffset - 2) := by
    rw [show 4 = 2 ^ 2 from rfl, ← pow_add]
    congr 1
    omega
  refine ⟨⟨pre, hslices, hpre, ?_, ?_⟩, ⟨Nat.le_add_right_of_le hge, hchunk⟩, ?_, ?_⟩
  · simp only [hwidth]
    omega
  · rw [fieldValue_append, fieldValue_singleton, toNat_mdo] at hvalue
    rw [fieldValue_append, fieldValue_singleton, toNat_mdo, hor, hvalue, hwidth, hquarter,
      mul_assoc, Nat.add_mul_div_left _ _ (by decide), pow_add, mul_add, mul_assoc, ← add_assoc]
  · rw [and_three_eq_iff] at hmark ⊢
    rw [hor, hquarter, mul_assoc, Nat.add_mul_mod_self_left, hmark]
  · rw [hor, pow_add]
    have hlow : val.toNat % 2 ^ chunk + 1 ≤ 2 ^ chunk := Nat.mod_lt _ (Nat.two_pow_pos _)
    calc sb.curslice.toNat + 2 ^ sb.cursliceOffset * (val.toNat % 2 ^ chunk)
        < 2 ^ sb.cursliceOffset + 2 ^ sb.cursliceOffset * (val.toNat % 2 ^ chunk) :=
          Nat.add_lt_add_right hlt _
      _ = 2 ^ sb.cursliceOffset * (val.toNat % 2 ^ chunk + 1) := by rw [mul_add, mul_one, add_comm]
      _ ≤ 2 ^ sb.cursliceOffset * 2 ^ chunk := Nat.mul_le_mul_left _ hlow

theorem Writing.appendLoop {fuel left : ℕ} {val : BitVec 64} (h : sb.Writing done width value)
    (hfuel : 2 * left ≤ fuel + if sb.cursliceOffset < 8 then 1 else 0) :
    (appendLoop fuel sb val left).Writing done (width + left)
    (value + 2 ^ width * (val.toNat % 2 ^ left)) := by
  induction fuel generalizing sb val left width value with
  | zero =>
    have hleft : left = 0 := by
      split_ifs at hfuel
      · omega
      · omega
    rw [hleft, pow_zero, Nat.mod_one, Nat.mul_zero]
    exact h
  | succ fuel ih =>
    rw [SwtMessageStreamBuilder.appendLoop]
    by_cases hleft : left = 0
    · rw [if_pos hleft, hleft, pow_zero, Nat.mod_one, Nat.mul_zero]
      exact h
    · rw [if_neg hleft]
      by_cases hfull : sb.cursliceOffset = 8
      · -- the flushed slice leaves room for the next pass
        have hchunk : min left (8 - sb.cursliceOffset) = 0 := by omega
        have hroom : sb.flushSlice.cursliceOffset + 0 ≤ 8 := (by decide : 2 + 0 ≤ 8)
        have hnext := (h.flush hfull).chunk val 0 hroom
        rw [pow_zero, Nat.mod_one, Nat.mul_zero] at hnext
        simp only [hchunk, if_pos hfull]
        rw [if_neg (by omega)] at hfuel
        have hless : 2 * left ≤ fuel + 1 := by omega
        exact ih hnext hless
      · have hlt : sb.cursliceOffset < 8 := lt_of_le_of_ne h.offset.2 hfull
        have hchunk : sb.cursliceOffset + min left (8 - sb.cursliceOffset) ≤ 8 := by omega
        rw [if_pos hlt] at hfuel
        generalize hc : min left (8 - sb.cursliceOffset) = chunk at hchunk ⊢
        have hrest : (SwtMessageStreamBuilder.appendLoop fuel _ (val >>> chunk)
            (left - chunk)).Writing done _ _ :=
          ih (h.chunk val chunk hchunk) (by omega)
        simp only [if_neg hfull]
        have hle : chunk ≤ left := by omega
        have hsplit : val.toNat % 2 ^ left = val.toNat % 2 ^ chunk + 2 ^ chunk *
            ((val >>> chunk).toNat % 2 ^ (left - chunk)) := by
          rw [BitVec.toNat_ushiftRight, Nat.shiftRight_eq_div_pow, ← Nat.mod_mul, ← pow_add,
            Nat.add_sub_cancel' hle]
        rw [hsplit, mul_add, ← mul_assoc, ← pow_add, ← add_assoc]
        rw [Nat.add_assoc, Nat.add_sub_cancel' hle] at hrest
        exact hrest

theorem Writing.append (h : sb.Writing done width value) (val : BitVec 64) (numbits : ℕ) :
    (sb.append val numbits).Writing done (width + numbits)
    (value + 2 ^ width * (val.toNat % 2 ^ numbits)) :=
  h.appendLoop (Nat.le_add_right (2 * numbits) _)

theorem writing_beginMessage (sb : SwtMessageStreamBuilder) :
    sb.beginMessage.Writing sb.slices 0 0 where
  slices :=
    ⟨[], (List.append_nil _).symm, List.forall_mem_nil _, rfl, (by decide : 0 = fieldValue [0])⟩
  offset := ⟨le_rfl, (by decide : 2 ≤ 8)⟩
  mark := (by decide : (0 : Byte) &&& 0x3 = MSEO_NORMAL)
  curslice := (by decide : (0 : Byte).toNat < 2 ^ 2)

theorem fieldSlices_append {pre : List Byte} (hpre : ∀ b ∈ pre, b &&& 0x3 = MSEO_NORMAL)
    {last mark : Byte} (hlast : last &&& 0x3 = mark) : FieldSlices mark (pre ++ [last]) := by
  induction pre with
  | nil => exact .last hlast
  | cons b pre ih =>
    obtain ⟨hb, hpre⟩ := List.forall_mem_cons.mp hpre
    exact .cons hb (ih hpre)

theorem Writing.varField (h : sb.Writing done width value) (val : BitVec 64) (numbits : ℕ)
    (hval : val.toNat < 2 ^ numbits)
    (hnumbits : 0 < numbits ∧ numbits ≤ 32 ∨ numbits = 64) (endOfMessage : Bool) :
    ∃ f, (sb.appendVarField val numbits endOfMessage).slices = done ++ f ∧
      FieldSlices (if endOfMessage then MSEO_END else MSEO_VAR_END) f ∧ fieldValue f = value +
        2 ^ width * val.toNat ∧
      width < 6 * f.length ∧ 6 * f.length ≤ width + numbits + 6 ∧
      (sb.appendVarField val numbits endOfMessage).Writing (done ++ f) 0 0 := by
  have hbits : val.toNat < 2 ^ minBits val numbits :=
    (toNat_lt_minBitsLoop hval (by omega)).trans_le (Nat.pow_le_pow_right (by decide)
      (le_max_left _ _))
  have hpos : 1 ≤ minBits val numbits := le_max_right _ _
  have hle : minBits val numbits ≤ numbits := max_le (minBitsLoop_le val numbits) (by omega)
  obtain ⟨⟨pre, hslices, hpre, hwidth, hvalue⟩, ⟨hge, hle8⟩, hmark, -⟩ :=
    h.append val (minBits val numbits)
  rw [Nat.mod_eq_of_lt hbits] at hvalue
  set sb' := sb.append val (minBits val numbits)
  set mark : Byte := if endOfMessage then 0x3 else 0x1 with hmarks
  have hlast : (sb'.curslice ||| mark) &&& 0x3 = if endOfMessage then MSEO_END
      else MSEO_VAR_END := by
    have hdist : (sb'.curslice ||| mark) &&& 0x3 = (sb'.curslice &&& 0x3) ||| (mark &&& 0x3) :=
      BitVec.and_or_distrib_right
    rw [hdist, hmark]
    cases endOfMessage <;> decide
  have hmdo : (sb'.curslice ||| mark) >>> 2 = sb'.curslice >>> 2 := by
    have hnone : mark >>> 2 = 0#8 := by cases endOfMessage <;> decide
    rw [BitVec.ushiftRight_or_distrib, hnone, BitVec.or_zero]
  have hall : (sb.appendVarField val numbits endOfMessage).slices = done ++
      (pre ++ [sb'.curslice ||| mark]) := by
    rw [← List.append_assoc, ← hslices]
    rfl
  refine ⟨pre ++ [sb'.curslice ||| mark], hall, fieldSlices_append hpre hlast, ?_, ?_, ?_, ?_⟩
  · rw [hvalue, fieldValue_append, fieldValue_append, fieldValue_singleton, fieldValue_singleton,
      hmdo]
  · rw [List.length_append, List.length_singleton]
    omega
  · rw [List.length_append, List.length_singleton]
    omega
  · rw [← hall]
    exact writing_beginMessage (sb.appendVarField val numbits endOfMessage)

theorem fieldSlices_tag {f : List Byte} {mark : Byte} (hf : FieldSlices mark f)
    (hlen : 2 ≤ f.length) {tagged : ℕ} (hvalue : fieldValue f = 7 + 2 ^ 6 * tagged) :
    ∃ f₀, f = dataAcquisitionSlice :: f₀ ∧ FieldSlices mark f₀ ∧ fieldValue f₀ = tagged := by
  cases hf with
  | last =>
    rw [List.length_singleton] at hlen
    omega
  | @cons b f₀ hb hf₀ =>
    have hmdo := mdo_lt b
    rw [fieldValue_cons] at hvalue
    rw [and_three_eq_iff] at hb
    rw [toNat_mdo] at hvalue hmdo
    have hslice : b = dataAcquisitionSlice := by
      apply BitVec.eq_of_toNat_eq
      change b.toNat = 28
      omega
    exact ⟨f₀, by rw [hslice], hf₀, by omega⟩

end SwtMessageStreamBuilder

end TraceDecoder
