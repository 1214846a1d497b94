import Mathlib.Tactic.IntervalCases
import TraceDecoder.Isa

/-!
# The decoder reads control flow as the manual has it

`flowOf` is what `nextAddr` makes of a decoded instruction. It is the control flow of the
instruction word, except that `c.ebreak` of a 32-bit program counts as an ordinary instruction.
-/

namespace TraceDecoder

open Isa Disassembler

/-! ### Offsets -/

theorem getLsbD_moveBits (w : RV_INST) (moves : List (ℕ × ℕ)) {i : ℕ} (hi : i < 32) :
    (moveBits w moves).getLsbD i = moves.any fun (s, d) => d == i && w.getLsbD s := by
  induction moves with
  | nil => exact BitVec.getLsbD_zero
  | cons m moves ih =>
    obtain ⟨s, d⟩ := m
    rw [List.any_cons, ← ih]
    simp only [moveBits, List.foldr_cons, BitVec.getLsbD_or]
    congr 1
    by_cases hs : w.getLsbD s = true
    · rw [if_pos hs, hs, Bool.and_true, BitVec.getLsbD_shiftLeft, BitVec.getLsbD_one]
      by_cases hd : d = i
      · subst hd
        simp [hi]
      · have hdi : (d == i) = false := by simpa using hd
        rw [hdi]
        have hne : i - d = 0 → i < d := by
          intro hzero
          simp only [beq_eq_false_iff_ne, ne_eq] at hdi
          omega
        by_cases hlt : i < d
        · simp [hlt]
        · simp [hlt, mt hne hlt]
    · rw [if_neg hs, (Bool.not_eq_true _).mp hs]
      simp

/-- Or-ing in the high bits of a negative offset extends its sign. -/
theorem signExtend_setWidth {n : ℕ} (hn : 0 < n) (h32 : n ≤ 32) (x : BitVec n) (high : BitVec 32)
    (hhigh : ∀ i < 32, high.getLsbD i = decide (n ≤ i)) :
    (signExtend (n - 1) high (x.setWidth 32)).signExtend 64 = x.signExtend 64 := by
  apply BitVec.eq_of_getLsbD_eq
  intro i hi
  have hmsb : x.msb = x.getLsbD (n - 1) := by rw [BitVec.msb_eq_getLsbD_last]
  have hsign : (x.setWidth 32).getLsbD (n - 1) = x.msb := by
    rw [BitVec.getLsbD_setWidth, hmsb]
    simp only [show n - 1 < 32 by omega, decide_true, Bool.true_and]
  have hbits : ∀ k < 32, (signExtend (n - 1) high (x.setWidth 32)).getLsbD k
      = if k < n then x.getLsbD k else x.msb := by
    intro k hk
    rw [signExtend, hsign]
    by_cases hneg : x.msb = true
    · rw [if_pos hneg, BitVec.getLsbD_or, BitVec.getLsbD_setWidth, hhigh k hk, hneg]
      by_cases hkn : k < n
      · simp [hk, hkn, Nat.not_le.mpr hkn]
      · simp [hkn, Nat.le_of_not_lt hkn]
    · rw [if_neg hneg, BitVec.getLsbD_setWidth]
      by_cases hkn : k < n
      · simp [hk, hkn]
      · rw [if_neg hkn, BitVec.getLsbD_of_ge x k (by omega), (Bool.not_eq_true _).mp hneg,
          Bool.and_false]
  have hlast : (signExtend (n - 1) high (x.setWidth 32)).msb = x.msb := by
    rw [BitVec.msb_eq_getLsbD_last, hbits 31 (by decide)]
    by_cases h31 : 31 < n
    · rw [if_pos h31, hmsb, show n - 1 = 31 by omega]
    · rw [if_neg h31]
  rw [BitVec.getLsbD_signExtend, BitVec.getLsbD_signExtend, hlast]
  by_cases hi32 : i < 32
  · rw [if_pos hi32, hbits i hi32]
  · rw [if_neg hi32, if_neg (by omega)]

section
variable (w : RV_INST)

/-- An offset put together bit by bit is the one concatenated from the fields. -/
theorem offset_eq {n : ℕ} (hn : 0 < n) (h32 : n ≤ 32) (moves : List (ℕ × ℕ)) (x : BitVec n)
    (high : BitVec 32) (hhigh : ∀ i < 32, high.getLsbD i = decide (n ≤ i))
    (hbits : ∀ i < 32, (moves.any fun (s, d) => d == i && w.getLsbD s) = x.getLsbD i) :
    (signExtend (n - 1) high (moveBits w moves)).signExtend 64 = x.signExtend 64 := by
  have hmoves : moveBits w moves = x.setWidth 32 := by
    apply BitVec.eq_of_getLsbD_eq
    intro i hi
    rw [getLsbD_moveBits w moves hi, hbits i hi, BitVec.getLsbD_setWidth]
    simp only [hi, decide_true, Bool.true_and]
  rw [hmoves]
  exact signExtend_setWidth hn h32 x high hhigh

theorem immJ_eq : (immJ w).signExtend 64 = offsetJ w := by
  refine offset_eq w (n := 21) (by decide) (by decide) _ _ _ (by decide) fun i hi => ?_
  simp only [BitVec.getLsbD_append, BitVec.getLsbD_extractLsb']
  interval_cases i <;> simp

theorem immB_eq : (immB w).signExtend 64 = offsetB w := by
  refine offset_eq w (n := 13) (by decide) (by decide) _ _ _ (by decide) fun i hi => ?_
  simp only [BitVec.getLsbD_append, BitVec.getLsbD_extractLsb']
  interval_cases i <;> simp

theorem immCJ_eq : (immCJ w).signExtend 64 = offsetCJ w := by
  refine offset_eq w (n := 12) (by decide) (by decide) _ _ _ (by decide) fun i hi => ?_
  simp only [BitVec.getLsbD_append, BitVec.getLsbD_extractLsb']
  interval_cases i <;> simp

theorem immCB_eq : (immCB w).signExtend 64 = offsetCB w := by
  refine offset_eq w (n := 9) (by decide) (by decide) _ _ _ (by decide) fun i hi => ?_
  simp only [BitVec.getLsbD_append, BitVec.getLsbD_extractLsb']
  interval_cases i <;> simp

/-! ### Fields -/

theorem field_eq (lo len : ℕ) : field w lo len = (w.extractLsb' lo len).setWidth 32 := by
  apply BitVec.eq_of_getLsbD_eq
  intro i hi
  rw [field, BitVec.getLsbD_and, BitVec.getLsbD_setWidth, BitVec.getLsbD_setWidth,
    BitVec.getLsbD_extractLsb', BitVec.getLsbD_ushiftRight, BitVec.getLsbD_allOnes]
  simp only [hi, decide_true, Bool.true_and, Bool.and_comm]

theorem setWidth_eq_ofNat_iff {n k : ℕ} (hn : n ≤ 32) (hk : k < 2 ^ n) (x : BitVec n) :
    x.setWidth 32 = BitVec.ofNat 32 k ↔ x = BitVec.ofNat n k := by
  have hx : x.toNat < 2 ^ 32 := x.isLt.trans_le (Nat.pow_le_pow_right (by decide) hn)
  have hk32 : k < 2 ^ 32 := hk.trans_le (Nat.pow_le_pow_right (by decide) hn)
  rw [← BitVec.toNat_inj, ← BitVec.toNat_inj, BitVec.toNat_setWidth, BitVec.toNat_ofNat,
    BitVec.toNat_ofNat, Nat.mod_eq_of_lt hx, Nat.mod_eq_of_lt hk32, Nat.mod_eq_of_lt hk]

theorem reg_eq (lo : ℕ) : reg w lo = some (w.extractLsb' lo 5) := by
  rw [reg, field_eq, BitVec.setWidth_setWidth_of_le _ (by decide), BitVec.setWidth_eq]

theorem isLink_some (r : BitVec 5) : isLink (some r) = link r := by
  simp only [isLink, link, REG_1, REG_5, Option.some.injEq]

end

/-! ### Instructions -/

/-- What the `switch` of `nextAddr` takes a decoded instruction for. -/
def flowOf (d : DecodedInst) : Flow :=
  match d.inst_type with
  | .jal | .cJal => .jump (d.immediate.signExtend 64) (isLink d.rd)
  | .cJ => .jump (d.immediate.signExtend 64) false
  | .beq | .bne | .blt | .bge | .bltu | .bgeu | .cBeqz | .cBnez =>
    .branch (d.immediate.signExtend 64)
  | .jalr =>
    .indirect
      (if isLink d.rd then (if isLink d.rs1 ∧ d.rd ≠ d.rs1 then .swap else .call)
       else if isLink d.rs1 then .ret else .jump)
  | .cJr => .indirect (if isLink d.rs1 then .ret else .jump)
  | .cJalr => .indirect (if d.rs1 = REG_5 then .swap else .call)
  | .ebreak | .ecall => .trap
  | .mret | .sret | .uret => .trapReturn
  | _ => .sequential

theorem hint_some (rd rs1 : BitVec 5) :
    (if isLink (some rd) then (if isLink (some rs1) ∧ (some rd : Reg) ≠ some rs1 then .swap
      else .call)
      else if isLink (some rs1) then .ret else .jump) = hint rd rs1 := by
  by_cases h : rd = rs1
  · simp only [hint, isLink_some, h, ne_eq, not_true_eq_false, and_false, if_false]
  · simp only [hint, isLink_some, h, ne_eq, Option.some.injEq, not_false_eq_true, and_true]

theorem branchType_eq_none (f : BitVec 3) : branchType (f.setWidth 32) = none ↔ f = 2 ∨ f = 3 := by
  revert f
  decide

theorem flowOf_branchType {funct3 : BitVec 32} {t : InstType} (h : branchType funct3 = some t)
    (rs1 rd : Reg) (imm : BitVec 32) :
    flowOf ⟨32, t, rs1, rd, imm, true⟩ = .branch (imm.signExtend 64) := by
  unfold branchType at h
  split_ifs at h <;> (cases h; rfl)

theorem flowOf_notControl {w : RV_INST} {d : DecodedInst} (hop : w.extractLsb' 0 7 ≠ 0x6f)
    (hjalr : ¬ (w.extractLsb' 0 7 = 0x67 ∧ w.extractLsb' 12 3 = 0))
    (hbranch : ¬ (w.extractLsb' 0 7 = 0x63 ∧ w.extractLsb' 12 3 ≠ 2 ∧ w.extractLsb' 12 3 ≠ 3))
    (hsystem : systemType w = .unknown) (hd : flowOf d = .sequential) : flowOf d = flow32 w := by
  have hne : ∀ c, systemType c ≠ .unknown → w ≠ c := fun c hc heq => hc (heq ▸ hsystem)
  have htrap : ¬ (w = 0x00000073 ∨ w = 0x00100073) := by
    rintro (h | h)
    · exact hne _ (by decide) h
    · exact hne _ (by decide) h
  have hret : ¬ (w = 0x00200073 ∨ w = 0x10200073 ∨ w = 0x30200073) := by
    rintro (h | h | h)
    · exact hne _ (by decide) h
    · exact hne _ (by decide) h
    · exact hne _ (by decide) h
  rw [hd, flow32, if_neg hop, if_neg hjalr, if_neg hbranch, if_neg htrap, if_neg hret]

/-- Outside the system opcode no word is a system instruction. -/
theorem systemType_of_opcode {w : RV_INST} (h : w.extractLsb' 0 7 ≠ 0x73) :
    systemType w = .unknown := by
  have hne : ∀ c : RV_INST, c.extractLsb' 0 7 = 0x73 → w ≠ c := fun c hc heq => h (heq ▸ hc)
  rw [systemType, if_neg (hne _ (by decide)), if_neg (hne _ (by decide)),
    if_neg (hne _ (by decide)), if_neg (hne _ (by decide)), if_neg (hne _ (by decide))]

theorem systemType_flow {w : RV_INST} (h : w.extractLsb' 0 7 = 0x73)
    (hsystem : systemType w ≠ .unknown) :
    flowOf ⟨32, systemType w, none, none, 0, true⟩ = flow32 w := by
  have hop : w.extractLsb' 0 7 ≠ 0x6f := by rw [h]; decide
  have hjalr : ¬ (w.extractLsb' 0 7 = 0x67 ∧ w.extractLsb' 12 3 = 0) := by
    rw [h]
    rintro ⟨h67, -⟩
    exact absurd h67 (by decide)
  have hbranch : ¬ (w.extractLsb' 0 7 = 0x63 ∧ w.extractLsb' 12 3 ≠ 2 ∧ w.extractLsb' 12 3 ≠
      3) := by
    rw [h]
    rintro ⟨h63, -⟩
    exact absurd h63 (by decide)
  rw [flow32, if_neg hop, if_neg hjalr, if_neg hbranch]
  unfold systemType at hsystem ⊢
  split_ifs at hsystem ⊢ <;> first | rfl | simp_all

theorem decode32Instruction_flow (w : RV_INST) (h : w &&& 0x1f ≠ 0x1f) :
    ∃ d, decode32Instruction w = some d ∧ d.inst_size = 32 ∧ flowOf d = flow32 w := by
  have hop : ∀ k < 2 ^ 7, field w 0 7 = BitVec.ofNat 32 k ↔ w.extractLsb' 0 7 = BitVec.ofNat 7 k :=
    fun k hk => by rw [field_eq, setWidth_eq_ofNat_iff (by decide) hk]
  have hf3 : ∀ k < 2 ^ 3, field w 12 3 = BitVec.ofNat 32 k ↔ w.extractLsb' 12 3 =
      BitVec.ofNat 3 k :=
    fun k hk => by rw [field_eq, setWidth_eq_ofNat_iff (by decide) hk]
  rw [decode32Instruction, if_neg h]
  by_cases hjal : w.extractLsb' 0 7 = 0x6f
  · refine ⟨_, if_pos ((hop 0x6f (by decide)).mpr hjal), rfl, ?_⟩
    rw [flow32, if_pos hjal, flowOf, immJ_eq, reg_eq, isLink_some, rd]
  have hnotJal : ¬ field w 0 7 = 0x6f := mt (hop 0x6f (by decide)).mp hjal
  by_cases hjalr : w.extractLsb' 0 7 = 0x67
  · simp only [(hop 0x67 (by decide)).mpr hjalr]
    by_cases hzero : w.extractLsb' 12 3 = 0
    · refine ⟨_, if_pos ((hf3 0 (by decide)).mpr hzero), rfl, ?_⟩
      rw [flow32, if_neg hjal, if_pos ⟨hjalr, hzero⟩, flowOf, reg_eq, reg_eq, hint_some, rd, rs1]
    · refine ⟨_, if_neg (mt (hf3 0 (by decide)).mp hzero), rfl, ?_⟩
      refine flowOf_notControl hjal (fun hc => hzero hc.2) ?_ (systemType_of_opcode ?_) rfl
      · rw [hjalr]
        rintro ⟨h63, -⟩
        exact absurd h63 (by decide)
      · rw [hjalr]
        decide
  have hnotJalr : ¬ field w 0 7 = 0x67 := mt (hop 0x67 (by decide)).mp hjalr
  have hjalr' : ¬ (w.extractLsb' 0 7 = 0x67 ∧ w.extractLsb' 12 3 = 0) := fun hc => hjalr hc.1
  by_cases hbranch : w.extractLsb' 0 7 = 0x63
  · simp only [(hop 0x63 (by decide)).mpr hbranch]
    cases ht : branchType (field w 12 3) with
    | some t =>
      refine ⟨_, rfl, rfl, ?_⟩
      have hfun : w.extractLsb' 12 3 ≠ 2 ∧ w.extractLsb' 12 3 ≠ 3 := by
        rw [← not_or, ← branchType_eq_none, ← field_eq, ht]
        exact Option.some_ne_none t
      rw [flowOf_branchType ht, immB_eq, flow32, if_neg hjal, if_neg hjalr', if_pos ⟨hbranch, hfun⟩]
    | none =>
      refine ⟨_, rfl, rfl, ?_⟩
      rw [field_eq, branchType_eq_none] at ht
      refine flowOf_notControl hjal hjalr' (fun hc => ht.elim hc.2.1 hc.2.2)
        (systemType_of_opcode ?_) rfl
      rw [hbranch]
      decide
  have hnotBranch : ¬ field w 0 7 = 0x63 := mt (hop 0x63 (by decide)).mp hbranch
  have hbranch' : ¬ (w.extractLsb' 0 7 = 0x63 ∧ w.extractLsb' 12 3 ≠ 2 ∧ w.extractLsb' 12 3 ≠ 3) :=
    fun hc => hbranch hc.1
  by_cases hsystem : w.extractLsb' 0 7 = 0x73
  · simp only [(hop 0x73 (by decide)).mpr hsystem]
    by_cases hunknown : systemType w = .unknown
    · rw [hunknown]
      exact ⟨_, rfl, rfl, flowOf_notControl hjal hjalr' hbranch' hunknown rfl⟩
    · refine ⟨⟨32, systemType w, none, none, 0, true⟩, ?_, rfl, systemType_flow hsystem hunknown⟩
      cases ht : systemType w <;> first | rfl | exact absurd ht hunknown
  have hnotSystem : ¬ field w 0 7 = 0x73 := mt (hop 0x73 (by decide)).mp hsystem
  have hrest :=
    fun d => flowOf_notControl (d := d) hjal hjalr' hbranch' (systemType_of_opcode hsystem)
  simp only [hnotJal, hnotJalr, hnotBranch, hnotSystem, if_false]
  split_ifs <;> exact ⟨_, rfl, rfl, hrest _ rfl⟩

/-! ### Compressed instructions -/

section
variable {w : RV_INST}

theorem quadrant_eq {k : ℕ} (hk : k < 2 ^ 2) :
    w &&& 0x0003 = BitVec.ofNat 32 k ↔ w.extractLsb' 0 2 = BitVec.ofNat 2 k := by
  have hfield : w &&& 0x0003 = field w 0 2 := by
    rw [field, BitVec.ushiftRight_zero]
    rfl
  rw [hfield, field_eq, setWidth_eq_ofNat_iff (by decide) hk]

theorem funct3_eq (hw : w.toNat < 2 ^ 16) {k : ℕ} (hk : k < 2 ^ 3) :
    w >>> 13 = BitVec.ofNat 32 k ↔ w.extractLsb' 13 3 = BitVec.ofNat 3 k := by
  have hshift : w >>> 13 = (w.extractLsb' 13 3).setWidth 32 := by
    apply BitVec.eq_of_toNat_eq
    rw [BitVec.toNat_ushiftRight, BitVec.toNat_setWidth, BitVec.extractLsb'_toNat,
      Nat.shiftRight_eq_div_pow]
    omega
  rw [hshift, setWidth_eq_ofNat_iff (by decide) hk]

theorem and_mask_eq_zero {lo len : ℕ} {mask : BitVec 32}
    (hmask : ∀ i < 32, mask.getLsbD i = decide (lo ≤ i ∧ i < lo + len)) (hlen : lo + len ≤ 32) :
    w &&& mask = 0 ↔ w.extractLsb' lo len = 0 := by
  constructor
  · intro h
    apply BitVec.eq_of_getLsbD_eq
    intro i hi
    have hbit := congrArg (BitVec.getLsbD · (lo + i)) h
    simp only [BitVec.getLsbD_and, hmask _ (show lo + i < 32 by omega)] at hbit
    rw [BitVec.getLsbD_extractLsb']
    simpa [hi] using hbit
  · intro h
    apply BitVec.eq_of_getLsbD_eq
    intro i hi
    rw [BitVec.getLsbD_and, hmask i hi]
    by_cases hin : lo ≤ i ∧ i < lo + len
    · have hbit := congrArg (BitVec.getLsbD · (i - lo)) h
      simp only [BitVec.getLsbD_extractLsb', show i - lo < len by omega, show lo + (i - lo) =
        i by omega, decide_true, Bool.true_and] at hbit
      rw [hbit]
      simp
    · simp [hin]

theorem decodeQ1Instruction_flow (xlen : Xlen) (hw : w.toNat < 2 ^ 16)
    (hq : w.extractLsb' 0 2 = 1) :
    ∃ d, decodeQ1Instruction w (xlen = .rv32) = some d ∧ d.inst_size = 16 ∧
      flowOf d = flow16 w xlen := by
  have h1 : w >>> 13 = 0x1 ↔ w.extractLsb' 13 3 = 1 := funct3_eq hw (k := 1) (by decide)
  have h5 : w >>> 13 = 0x5 ↔ w.extractLsb' 13 3 = 5 := funct3_eq hw (k := 5) (by decide)
  have h6 : w >>> 13 = 0x6 ↔ w.extractLsb' 13 3 = 6 := funct3_eq hw (k := 6) (by decide)
  have h7 : w >>> 13 = 0x7 ↔ w.extractLsb' 13 3 = 7 := funct3_eq hw (k := 7) (by decide)
  simp only [decodeQ1Instruction, flow16, h1, h5, h6, h7, hq, true_and, decide_eq_true_eq]
  have hq2 : ¬ ((1 : BitVec 2) = 2 ∧ w.extractLsb' 13 3 = 4 ∧ w.extractLsb' 2 5 = 0) := fun hc =>
    absurd hc.1 (by decide)
  by_cases hjal : w.extractLsb' 13 3 = 1 ∧ xlen = .rv32
  · refine ⟨_, if_pos hjal, rfl, ?_⟩
    rw [if_pos hjal, ← immCJ_eq]
    rfl
  by_cases hj : w.extractLsb' 13 3 = 5
  · refine ⟨_, (if_neg hjal).trans (if_pos hj), rfl, ?_⟩
    rw [if_neg hjal, if_pos hj, ← immCJ_eq]
    rfl
  by_cases hbeqz : w.extractLsb' 13 3 = 6
  · refine ⟨_, (if_neg hjal).trans ((if_neg hj).trans (if_pos hbeqz)), rfl, ?_⟩
    rw [if_neg hjal, if_neg hj, if_pos (.inl hbeqz), ← immCB_eq]
    rfl
  by_cases hbnez : w.extractLsb' 13 3 = 7
  · refine ⟨_, (if_neg hjal).trans ((if_neg hj).trans ((if_neg hbeqz).trans (if_pos hbnez))), rfl,
      ?_⟩
    rw [if_neg hjal, if_neg hj, if_pos (.inr hbnez), ← immCB_eq]
    rfl
  · refine ⟨_, (if_neg hjal).trans ((if_neg hj).trans ((if_neg hbeqz).trans (if_neg hbnez))), rfl,
      ?_⟩
    rw [if_neg hjal, if_neg hj, if_neg (not_or.mpr ⟨hbeqz, hbnez⟩), if_neg hq2]
    rfl

theorem flowOf_cJr (r : BitVec 5) : flowOf ⟨16, .cJr, some r, REG_0, 0, true⟩ = .indirect
    (hint 0 r) := by
  revert r
  decide

theorem flowOf_cJalr (r : BitVec 5) : flowOf ⟨16, .cJalr, some r, REG_1, 0, true⟩ = .indirect
    (hint 1 r) := by
  revert r
  decide

theorem decodeQ2Instruction_flow (xlen : Xlen) {ebreakType : InstType}
    (hebreak : ebreakType = .ebreak ∨ ebreakType = .cEbreak) (hw : w.toNat < 2 ^ 16)
    (hq : w.extractLsb' 0 2 = 2) :
    ∃ d, decodeQ2Instruction w ebreakType = some d ∧ d.inst_size = 16 ∧
      (flowOf d = flow16 w xlen ∨ flow16 w xlen = .trap ∧ flowOf d = .sequential) := by
  have h4 : w >>> 13 = 0x4 ↔ w.extractLsb' 13 3 = 4 := funct3_eq hw (k := 4) (by decide)
  have hrs2 : w &&& 0x007c = 0 ↔ w.extractLsb' 2 5 = 0 := and_mask_eq_zero (by decide) (by decide)
  have hrd : w &&& 0x0f80 = 0 ↔ rd w = 0 := and_mask_eq_zero (by decide) (by decide)
  have hq1 : ∀ P : Prop, ¬ ((2 : BitVec 2) = 1 ∧ P) := fun P hc => absurd hc.1 (by decide)
  simp only [decodeQ2Instruction, flow16, h4, hrs2, ne_eq, hrd, hq, hq1, true_and, if_false]
  by_cases hop : w.extractLsb' 13 3 = 4 ∧ w.extractLsb' 2 5 = 0
  · rw [if_pos hop, if_pos hop]
    by_cases hreg : rd w = 0 <;> by_cases h12 : w.getLsbD 12 = true <;>
      simp only [hreg, h12, not_true_eq_false, not_false_eq_true, if_true, if_false,
        Bool.false_eq_true]
    · obtain rfl | rfl := hebreak
      · exact ⟨_, rfl, rfl, .inl rfl⟩
      · exact ⟨_, rfl, rfl, .inr ⟨trivial, rfl⟩⟩
    · exact ⟨_, rfl, rfl, .inl rfl⟩
    · exact ⟨_, rfl, rfl, .inl (by rw [reg_eq, ← rd, flowOf_cJalr])⟩
    · exact ⟨_, rfl, rfl, .inl (by rw [reg_eq, ← rd, flowOf_cJr])⟩
  · rw [if_neg hop, if_neg hop]
    exact ⟨_, rfl, rfl, .inl rfl⟩

end

/-- `d` is the decoding of an instruction word. -/
structure Decoded (xlen : Xlen) (w : RV_INST) (d : DecodedInst) : Prop where
  decodes : decodeInstruction w xlen.archSize = some d
  inst_size : d.inst_size = 8 * size w
  flow : flowOf d = flow w xlen ∨ flow w xlen = .trap ∧ flowOf d = .sequential

theorem exists_decoded (img : Image) (xlen : Xlen) {a : ADDRESS} {w : RV_INST}
    (hw : img.word a = some w) :
    ∃ d, Decoded xlen w d := by
  obtain ⟨hshort, hlong⟩ := img.fetched a w hw
  have h0 : w &&& 0x0003 = 0 ↔ w.extractLsb' 0 2 = 0 := quadrant_eq (k := 0) (by decide)
  have h1 : w &&& 0x0003 = 1 ↔ w.extractLsb' 0 2 = 1 := quadrant_eq (k := 1) (by decide)
  have h2 : w &&& 0x0003 = 2 ↔ w.extractLsb' 0 2 = 2 := quadrant_eq (k := 2) (by decide)
  have h3 : w &&& 0x0003 = 3 ↔ w.extractLsb' 0 2 = 3 := quadrant_eq (k := 3) (by decide)
  have hquadrant : ∀ q : BitVec 2, q = 0 ∨ q = 1 ∨ q = 2 ∨ q = 3 := by decide
  have hcompressed : ∀ q : BitVec 2, w.extractLsb' 0 2 = q → q ≠ 3 → w.toNat < 2 ^ 16 ∧ size w = 2 ∧
      flow w xlen = flow16 w xlen := by
    intro q hq hq3
    have hlow : w.extractLsb' 0 2 ≠ 3 := hq ▸ hq3
    exact ⟨hshort (mt h3.mp hlow), if_neg hlow, if_neg hlow⟩
  have hnot : ∀ (P : Prop) (k q : BitVec 2), (P ↔ w.extractLsb' 0 2 = k) → w.extractLsb' 0 2 = q →
      q ≠ k → ¬ P := fun P k q hP hq hne hp => hne (hq.symm.trans (hP.mp hp))
  obtain hq | hq | hq | hq := hquadrant (w.extractLsb' 0 2)
  · obtain ⟨-, hsize, hflow⟩ := hcompressed 0 hq (by decide)
    have hseq : flow16 w xlen = .sequential := by
      simp only [flow16, hq]
      rfl
    have hdecode : decodeQ0Instruction w = some (plain 16) := if_neg (not_not.mpr (h0.mpr hq))
    refine ⟨plain 16, ?_, by rw [hsize]; rfl, .inl (by rw [hflow, hseq]; rfl)⟩
    cases xlen <;> exact (if_pos (h0.mpr hq)).trans hdecode
  · have hn0 := hnot _ _ _ h0 hq (by decide)
    obtain ⟨hw16, hsize, hflow⟩ := hcompressed 1 hq (by decide)
    obtain ⟨d, hd, hbits, hf⟩ := decodeQ1Instruction_flow xlen hw16 hq
    refine ⟨d, ?_, by rw [hsize, hbits], .inl (by rw [hflow, hf])⟩
    cases xlen <;> exact (if_neg hn0).trans ((if_pos (h1.mpr hq)).trans hd)
  · have hn0 := hnot _ _ _ h0 hq (by decide)
    have hn1 := hnot _ _ _ h1 hq (by decide)
    obtain ⟨hw16, hsize, hflow⟩ := hcompressed 2 hq (by decide)
    cases xlen with
    | rv32 =>
      obtain ⟨d, hd, hbits, hf⟩ := decodeQ2Instruction_flow .rv32 (.inr rfl) hw16 hq
      exact ⟨d, (if_neg hn0).trans ((if_neg hn1).trans ((if_pos (h2.mpr hq)).trans hd)),
        by rw [hsize, hbits], hflow ▸ hf⟩
    | rv64 =>
      obtain ⟨d, hd, hbits, hf⟩ := decodeQ2Instruction_flow .rv64 (.inl rfl) hw16 hq
      exact ⟨d, (if_neg hn0).trans ((if_neg hn1).trans ((if_pos (h2.mpr hq)).trans hd)),
        by rw [hsize, hbits], hflow ▸ hf⟩
  · have hn0 := hnot _ _ _ h0 hq (by decide)
    have hn1 := hnot _ _ _ h1 hq (by decide)
    have hn2 := hnot _ _ _ h2 hq (by decide)
    obtain ⟨d, hd, hbits, hf⟩ := decode32Instruction_flow w (hlong (h3.mpr hq))
    refine ⟨d, ?_, by rw [size, if_pos hq, hbits], .inl (by rw [flow, if_pos hq, hf])⟩
    cases xlen <;> exact (if_neg hn0).trans ((if_neg hn1).trans ((if_neg hn2).trans hd))

end TraceDecoder
