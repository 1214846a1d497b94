import TraceDecoder.DecodeFlow

/-!
# What a step changes

A step uses up half-words of the instruction count, takes branch outcomes and return addresses, and
may find out that the trace has branch histories. It looks at nothing of the message but its body.
-/

namespace TraceDecoder

open Isa

theorem instSize_of_decode {img : Image} {archSize : ℕ} {a : ADDRESS} {w : RV_INST}
    {d : DecodedInst} (hw : img.word a = some w)
    (hd : Disassembler.decodeInstruction w archSize = some d) :
    d.inst_size = 16 ∨ d.inst_size = 32 := by
  obtain ⟨xlen, rfl⟩ : ∃ xlen : Xlen, archSize = xlen.archSize := by
    by_cases h32 : archSize = 32
    · exact ⟨.rv32, h32⟩
    · by_cases h64 : archSize = 64
      · exact ⟨.rv64, h64⟩
      · simp [Disassembler.decodeInstruction, h32, h64] at hd
  obtain ⟨d', hdecoded⟩ := exists_decoded img xlen hw
  obtain rfl : d' = d := Option.some.inj (hdecoded.decodes.symm.trans hd)
  have hsize := hdecoded.inst_size
  unfold size at hsize
  split_ifs at hsize
  · exact .inr hsize
  · exact .inl hsize

namespace Stepped

variable {d : DecodedInst} {nm : NexusMessage} {traceType : TraceType} {c : Count} {halfWords : ℤ}
    {next target : ADDRESS} {s : Stepped}

/-- The instruction count stays as it is, and so does the trace type unless it is
that of a branch trace. -/
def Keeps (traceType : TraceType) (c : Count) (s : Stepped) : Prop :=
  s.count.i_cnt = c.i_cnt ∧ (traceType = .btm ∨ s.traceType = traceType)

theorem branchHtm_keeps (h : branchHtm nm traceType c halfWords next target = some s) :
    s.Keeps traceType c := by
  unfold branchHtm at h
  cases hcount : c.getCurrentCountType <;> simp only [hcount, reduceCtorEq] at h
  case i_cnt =>
    cases h
    exact ⟨rfl, .inr rfl⟩
  case history =>
    unfold Count.consumeHistory at h
    split_ifs at h
    cases htaken : c.isTaken <;> rw [htaken] at h <;> cases h <;> exact ⟨rfl, .inr rfl⟩
  case taken =>
    unfold Count.consumeTakenCount at h
    split_ifs at h <;> cases h
    exact ⟨rfl, .inr rfl⟩
  case notTaken =>
    unfold Count.consumeNotTakenCount at h
    split_ifs at h <;> cases h
    exact ⟨rfl, .inr rfl⟩

theorem branch_keeps (h : branch nm traceType c halfWords next target = some s) :
    s.Keeps traceType c := by
  unfold branch at h
  cases traceType <;> simp only [reduceCtorEq] at h
  case btm =>
    cases h
    unfold branchBtm
    split_ifs <;> exact ⟨rfl, .inl rfl⟩
  all_goals exact branchHtm_keeps h

theorem indirectJump_keeps (mask crFlag : CRFlag) {c' : Count} (hc : c'.i_cnt = c.i_cnt)
    (pc : ADDRESS) :
    (indirectJump mask crFlag traceType c' halfWords next pc).Keeps traceType c := by
  refine ⟨hc, ?_⟩
  unfold indirectJump
  dsimp only
  split_ifs with hbtm
  · exact .inl hbtm.1
  · exact .inr rfl

theorem jal_keeps : (jal d traceType c next target).Keeps traceType c := by
  unfold jal
  split_ifs <;> exact ⟨rfl, .inr rfl⟩

theorem ofInst_keeps (h : ofInst d nm traceType c halfWords next target = some s) :
    s.Keeps traceType c := by
  unfold ofInst at h
  cases hinst : d.inst_type <;> simp only [hinst] at h
  case beq | bne | blt | bge | bltu | bgeu | cBeqz | cBnez => exact branch_keeps h
  case jal | cJal =>
    cases h
    exact jal_keeps
  case jalr =>
    cases h
    unfold jalr
    dsimp only
    split_ifs <;> exact indirectJump_keeps _ _ rfl _
  case cJr =>
    cases h
    unfold cJr
    split_ifs <;> exact indirectJump_keeps _ _ rfl _
  case cJalr =>
    cases h
    unfold cJalr
    split_ifs <;> exact indirectJump_keeps _ _ rfl _
  all_goals
    cases h
    exact ⟨rfl, .inr rfl⟩

end Stepped

section
variable {img : Image} {archSize : ℕ} {traceType : TraceType} {c : Count} {nm : NexusMessage}
    {a : ADDRESS} {s : Stepped}

/-- A step that succeeds is one of an instruction in memory. -/
theorem nextAddr_ok (h : nextAddr img archSize traceType c nm a = .ok s) :
    ∃ (d : DecodedInst) (s' : Stepped), (d.inst_size = 16 ∨ d.inst_size = 32) ∧
      s'.Keeps traceType c ∧ s = s'.consume (d.inst_size / 16) := by
  unfold nextAddr at h
  cases hw : img.word a with
  | none => simp [hw] at h
  | some w =>
    cases hd : Disassembler.decodeInstruction w archSize with
    | none => simp [hw, hd] at h
    | some d =>
      simp only [hw, hd] at h
      cases hinst : Stepped.ofInst d nm traceType c (d.inst_size / 16)
          (a + BitVec.ofNat 64 (d.inst_size / 8)) (a + d.immediate.signExtend 64) with
      | none => simp [hinst] at h
      | some s' =>
        simp only [hinst, Except.ok.injEq] at h
        exact ⟨d, s', instSize_of_decode hw hd, Stepped.ofInst_keeps hinst, h.symm⟩

/-- An instruction that runs uses up half-words, unless it is a branch that is tried again. -/
theorem nextAddr_i_cnt (h : nextAddr img archSize traceType c nm a = .ok s) :
    s.brFlag = .unknown ∧ s.count.i_cnt = c.i_cnt ∨ s.brFlag ≠ .unknown ∧
      s.count.i_cnt < c.i_cnt := by
  obtain ⟨d, s', hsize, ⟨hsame, -⟩, rfl⟩ := nextAddr_ok h
  unfold Stepped.consume
  split_ifs with hunknown
  · exact .inl ⟨hunknown, hsame⟩
  · refine .inr ⟨hunknown, ?_⟩
    change s'.count.i_cnt - (d.inst_size / 16 : ℤ) < c.i_cnt
    omega

theorem nextAddr_traceType (h : nextAddr img archSize traceType c nm a = .ok s) :
    traceType = .btm ∨ s.traceType = traceType := by
  obtain ⟨d, s', -, ⟨-, htype⟩, rfl⟩ := nextAddr_ok h
  unfold Stepped.consume
  split_ifs
  · exact htype
  · exact htype

theorem nextAddr_body {nm' : NexusMessage} (h : nm.body = nm'.body) :
    nextAddr img archSize traceType c nm a = nextAddr img archSize traceType c nm' a := by
  have hundecided (c : Count) (halfWords : ℤ) (next target : ADDRESS) :
      Stepped.undecided nm c halfWords next target = Stepped.undecided nm' c halfWords
        next target := by
    unfold Stepped.undecided
    rw [h]
  have htcode : nm.tcode = nm'.tcode := congrArg MessageBody.tcode h
  unfold nextAddr
  simp only [Stepped.ofInst, Stepped.branch, Stepped.branchHtm, Stepped.branchBtm, hundecided,
    htcode]

end

end TraceDecoder
