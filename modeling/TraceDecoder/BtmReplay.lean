import TraceDecoder.ExecutionPath
import TraceDecoder.FlowStep

/-!
# Replay of branch traces

A branch trace has no branch outcomes: the instruction count of a direct-branch message ends at the
branch that was taken, and every branch before it was not. With the count of the message loaded, the
walk visits the path the message was made for and stops behind it, as long as the path does not wrap
round at the end of the address space.
-/

namespace TraceDecoder

open Isa

/-- The walk while the instruction count is positive, for at most `n` steps. -/
def replayWhile (img : Image) (archSize : ℕ) (nm : NexusMessage) :
    ℕ → TraceType → Count → ADDRESS → Except DQErr (List (ADDRESS × Stepped))
  | 0, _, _, _ => .ok []
  | n + 1, traceType, c, addr =>
    if c.i_cnt ≤ 0 then .ok []
    else do
      let s ← nextAddr img archSize traceType c nm addr
      let run ← replayWhile img archSize nm n s.traceType s.count s.pc
      return (addr, s) :: run

/-- The run visits the path and ends at `target` with the count used up. -/
structure VisitsBtm (run : List (ADDRESS × Stepped)) (path : List Visit) (target : ADDRESS) :
    Prop where
  addrs : run.map (·.1) = path.map Visit.addr
  brFlags : run.map (·.2.brFlag) = path.map Visit.brFlag
  last : ∃ addr s, run.getLast? = some (addr, s) ∧ s.pc = target ∧ s.count.i_cnt = 0 ∧
    s.traceType = .btm

def IsDirectBranch (i_cnt : ℤ) : MessageBody → Prop
  | .directBranch n | .directBranchWS _ n _ => n = i_cnt
  | _ => False

section
variable {img : Image} {xlen : Xlen} {fits : ADDRESS → Prop} {nm : NexusMessage}
    {start target : ADDRESS}
  {path : List Visit}

theorem IsDirectBranch.tcode {n : ℤ} (h : IsDirectBranch n nm.body) :
    nm.tcode = .directBranch ∨ nm.tcode = .directBranchWS := by
  cases hb : nm.body <;> simp only [IsDirectBranch, hb] at h <;>
    simp [NexusMessage.tcode, MessageBody.tcode, hb]

theorem IsDirectBranch.newCounts {n : ℤ} {body : MessageBody} (h : IsDirectBranch n body) :
    Count.newCounts body = some { i_cnt := n } := by
  cases body <;> simp only [IsDirectBranch] at h <;> rw [← h] <;> rfl

theorem two_le_size (w : RV_INST) : 2 ≤ size w := by
  unfold size
  split_ifs <;> omega

theorem BtmPath.halfWords_pos (hpath : BtmPath img xlen fits start path target) :
    0 < halfWords path := by
  induction hpath with
  | @last _ w =>
    have hsize := two_le_size w
    simp only [halfWords]
    omega
  | @sequential _ w _ _ _ _ _ _ ih | @jump _ w _ _ _ _ _ _ _ _ ih | @branch _ w _ _ _ _ _ _ _ ih =>
    simp only [halfWords]
    omega

/-- What a step inside the path does to the trace type and the count. -/
structure BtmStep (img : Image) (xlen : Xlen) (nm : NexusMessage) (c : Count) (v : Visit)
    (a : ADDRESS) (s : Stepped) : Prop where
  step : nextAddr img xlen.archSize .btm c nm v.addr = .ok s
  pc : s.pc = a
  brFlag : s.brFlag = v.brFlag
  traceType : s.traceType = .btm
  i_cnt : s.count.i_cnt = c.i_cnt - v.size / 2

theorem replayWhile_cons {n : ℕ} {c : Count} {v : Visit} {a : ADDRESS} {s : Stepped}
    {run : List (ADDRESS × Stepped)} (hc : 0 < c.i_cnt) (hs : BtmStep img xlen nm c v a s)
    (hrun : replayWhile img xlen.archSize nm n .btm s.count a = .ok run) :
    replayWhile img xlen.archSize nm (n + 1) .btm c v.addr = .ok ((v.addr, s) :: run) := by
  rw [← hs.pc, ← hs.traceType] at hrun
  rw [replayWhile, if_neg (by omega), hs.step]
  change (replayWhile img xlen.archSize nm n s.traceType s.count s.pc >>= _) = _
  rw [hrun]
  rfl

theorem replayWhile_stop {n : ℕ} {c : Count} {addr : ADDRESS} {traceType : TraceType}
    (hc : c.i_cnt = 0) :
    replayWhile img xlen.archSize nm n traceType c addr = .ok [] := by
  cases n with
  | zero => rfl
  | succ n => rw [replayWhile, if_pos (by omega)]

theorem VisitsBtm.cons {c : Count} {v : Visit} {a : ADDRESS} {s : Stepped}
    {run : List (ADDRESS × Stepped)}
    (hs : BtmStep img xlen nm c v a s) (h : VisitsBtm run path target) :
    VisitsBtm ((v.addr, s) :: run) (v :: path) target where
  addrs := by rw [List.map_cons, List.map_cons, h.addrs]
  brFlags := by rw [List.map_cons, List.map_cons, h.brFlags, hs.brFlag]
  last := by
    obtain ⟨addr, t, hlast, hend⟩ := h.last
    refine ⟨addr, t, ?_, hend⟩
    rw [List.getLast?_cons, hlast]
    rfl

/-- The step at the taken branch, which uses up the count. -/
theorem btmStep_taken {c : Count} {a : ADDRESS} {w : RV_INST} {offset : ADDRESS}
    (hw : img.word a = some w) (hf : flow w xlen = .branch offset)
    (htcode : nm.tcode = .directBranch ∨ nm.tcode = .directBranchWS) (hcnt : c.i_cnt = size w / 2) :
    ∃ s, BtmStep img xlen nm c ⟨a, size w, some true⟩ (a + offset) s := by
  have hstep := nextAddr_eq_ofFlow hw (by rw [hf]; exact Isa.Flow.noConfusion) .btm c nm
  rw [hf] at hstep
  simp only [Stepped.ofFlow, Stepped.branch, Stepped.branchBtm, hcnt, lt_irrefl, if_false, htcode,
    if_true] at hstep
  exact ⟨_, hstep, rfl, rfl, rfl, rfl⟩

/-- The step at a branch that leaves some of the count. -/
theorem btmStep_notTaken (nm : NexusMessage) {c : Count} {a : ADDRESS} {w : RV_INST}
    {offset : ADDRESS}
    (hw : img.word a = some w) (hf : flow w xlen = .branch offset) (hcnt : size w / 2 < c.i_cnt) :
    ∃ s, BtmStep img xlen nm c ⟨a, size w, some false⟩ (a + BitVec.ofNat 64 (size w)) s := by
  have hstep := nextAddr_eq_ofFlow hw (by rw [hf]; exact Isa.Flow.noConfusion) .btm c nm
  rw [hf] at hstep
  simp only [Stepped.ofFlow, Stepped.branch, Stepped.branchBtm, hcnt, if_true] at hstep
  exact ⟨_, hstep, rfl, rfl, rfl, rfl⟩

theorem btmStep_sequential (nm : NexusMessage) (c : Count) {a : ADDRESS} {w : RV_INST}
    (hw : img.word a = some w) (hf : flow w xlen = .sequential) :
    ∃ s, BtmStep img xlen nm c ⟨a, size w, none⟩ (a + BitVec.ofNat 64 (size w)) s := by
  have hstep := nextAddr_eq_ofFlow hw (by rw [hf]; exact Isa.Flow.noConfusion) .btm c nm
  rw [hf] at hstep
  exact ⟨_, hstep, rfl, rfl, rfl, rfl⟩

theorem btmStep_jump (nm : NexusMessage) (c : Count) {a : ADDRESS} {w : RV_INST} {offset : ADDRESS}
    {link : Bool} (hw : img.word a = some w) (hf : flow w xlen = .jump offset link) :
    ∃ s, BtmStep img xlen nm c ⟨a, size w, none⟩ (a + offset) s := by
  have hstep := nextAddr_eq_ofFlow hw (by rw [hf]; exact Isa.Flow.noConfusion) .btm c nm
  rw [hf] at hstep
  cases link <;> exact ⟨_, hstep, rfl, rfl, rfl, rfl⟩

theorem replayWhile_step {c : Count} {n : ℕ} {v : Visit} {a : ADDRESS} {s : Stepped}
    (hs : BtmStep img xlen nm c v a s) (hcnt : c.i_cnt = halfWords (v :: path))
    (hpos : 0 < halfWords path) (hn : (v :: path).length ≤ n)
    (ih : ∀ (c : Count) (n : ℕ), c.i_cnt = halfWords path → path.length ≤ n →
      ∃ run, replayWhile img xlen.archSize nm n .btm c a = .ok run ∧ VisitsBtm run path target) :
    ∃ run, replayWhile img xlen.archSize nm n .btm c v.addr = .ok run ∧ VisitsBtm run
      (v :: path) target := by
  obtain ⟨n, rfl⟩ := Nat.exists_eq_add_one_of_ne_zero (Nat.ne_zero_of_lt hn)
  rw [halfWords] at hcnt
  have hcnt' : s.count.i_cnt = halfWords path := by
    rw [hs.i_cnt, hcnt]
    omega
  obtain ⟨run, hrun, hvisits⟩ := ih s.count n hcnt' (Nat.le_of_succ_le_succ hn)
  exact ⟨_, replayWhile_cons (by omega) hs hrun, hvisits.cons hs⟩

theorem replayWhile_path (htcode : nm.tcode = .directBranch ∨ nm.tcode = .directBranchWS)
    (hwrap : ∀ a, fits a → xlen.wrap a = a) (hpath : BtmPath img xlen fits start path target) :
    ∀ (c : Count) (n : ℕ), c.i_cnt = halfWords path → path.length ≤ n →
      ∃ run, replayWhile img xlen.archSize nm n .btm c start = .ok run ∧
        VisitsBtm run path target := by
  induction hpath with
  | @last a w offset hw hf hfits =>
    intro c n hcnt hn
    rw [hwrap _ hfits]
    obtain ⟨n, rfl⟩ := Nat.exists_eq_add_one_of_ne_zero (Nat.ne_zero_of_lt hn)
    rw [halfWords, halfWords, Int.add_zero] at hcnt
    obtain ⟨s, hs⟩ := btmStep_taken hw hf htcode hcnt
    have hsize := two_le_size w
    have hpos : 0 < c.i_cnt := by
      rw [hcnt]
      change (0 : ℤ) < (size w : ℤ) / 2
      omega
    have hzero : s.count.i_cnt = 0 := by rw [hs.i_cnt, hcnt, Int.sub_self]
    refine ⟨_, replayWhile_cons hpos hs (replayWhile_stop hzero), rfl, ?_, a, s, rfl, hs.pc, hzero,
      hs.traceType⟩
    rw [List.map_singleton, hs.brFlag, List.map_singleton]
  | sequential hw hf hfits hrest ih =>
    intro c n hcnt hn
    rw [hwrap _ hfits] at ih
    obtain ⟨s, hs⟩ := btmStep_sequential nm c hw hf
    exact replayWhile_step hs hcnt hrest.halfWords_pos hn ih
  | jump hw hf hfits hrest ih =>
    intro c n hcnt hn
    rw [hwrap _ hfits] at ih
    obtain ⟨s, hs⟩ := btmStep_jump nm c hw hf
    exact replayWhile_step hs hcnt hrest.halfWords_pos hn ih
  | branch hw hf hfits hrest ih =>
    intro c n hcnt hn
    rw [hwrap _ hfits] at ih
    have hpos := hrest.halfWords_pos
    have hleft := hcnt
    rw [halfWords] at hleft
    obtain ⟨s, hs⟩ :=
      btmStep_notTaken nm hw hf (by rw [hleft]; exact Int.lt_add_of_pos_right _ hpos)
    exact replayWhile_step hs hcnt hpos hn ih

/-- **Branch replay.** A direct-branch message loaded on a core with no instruction count left makes
the walk visit the path and stop at the target of its last branch, if no step of the path leaves the
address space. -/
theorem btmReplays (c : Count) (hcnt : c.i_cnt = 0)
    (hpath : BtmPath img xlen xlen.Fits start path target)
    (hmsg : IsDirectBranch (halfWords path) nm.body) (n : ℕ) (hn : path.length ≤ n) :
    ∃ c₁ run, c.setCounts nm.body = (.ok, c₁) ∧
      replayWhile img xlen.archSize nm n .btm c₁ start = .ok run ∧ VisitsBtm run path target := by
  have hset : c.setCounts nm.body = (.ok, c.setICnt (halfWords path)) := by
    have hne : halfWords path ≠ 0 := ne_of_gt hpath.halfWords_pos
    simp only [Count.setCounts, hmsg.newCounts, Count.addCounts, hne, ne_eq, not_true_eq_false,
      not_false_eq_true, if_true, if_false]
  have hcnt₁ : (c.setICnt (halfWords path)).i_cnt = halfWords path := by
    rw [Count.setICnt, hcnt, Int.zero_add]
  obtain ⟨run, hrun, hvisits⟩ := replayWhile_path hmsg.tcode (fun _ h => h) hpath _ n hcnt₁ hn
  exact ⟨_, run, hset, hrun, hvisits⟩

end

/-- A branch over a compressed instruction that is not taken, and one back that is. -/
def loopBack : Image := Image.ofWords fun a =>
  match a.toNat with
  | 0x200 => some 0x0001
  | 0x202 => some 0x00000363
  | 0x206 => some 0x0001
  | 0x208 => some 0xdc65
  | _ => none

def loopBackPath : List Visit :=
  [⟨0x200, 2, none⟩, ⟨0x202, 4, some false⟩, ⟨0x206, 2, none⟩, ⟨0x208, 2, some true⟩]

def loopBackMessage : NexusMessage := { NexusMessage.init with body := .directBranchWS 5 5 0x100 }

theorem btmReplays_loopBack :
    ∃ c₁ run, Count.init.setCounts loopBackMessage.body = (.ok, c₁) ∧
      replayWhile loopBack 64 loopBackMessage 100 .btm c₁ 0x200 = .ok run ∧
      VisitsBtm run loopBackPath 0x200 := by
  have hlast : BtmPath loopBack .rv64 Xlen.rv64.Fits 0x208 [⟨0x208, 2, some true⟩] 0x200 :=
    .last (by decide) (show flow 0xdc65 .rv64 = .branch (-8) by decide) rfl
  have hnop : BtmPath loopBack .rv64 Xlen.rv64.Fits 0x206 [⟨0x206, 2, none⟩, ⟨0x208, 2, some true⟩]
      0x200 :=
    .sequential (w := 0x0001) (by decide) (by decide) rfl hlast
  have hbranch : BtmPath loopBack .rv64 Xlen.rv64.Fits 0x202
      [⟨0x202, 4, some false⟩, ⟨0x206, 2, none⟩, ⟨0x208, 2, some true⟩] 0x200 :=
    .branch (by decide) (show flow 0x00000363 .rv64 = .branch 6 by decide) rfl hnop
  have hpath : BtmPath loopBack .rv64 Xlen.rv64.Fits 0x200 loopBackPath 0x200 :=
    .sequential (w := 0x0001) (by decide) (by decide) rfl hbranch
  have hmsg : IsDirectBranch (halfWords loopBackPath) loopBackMessage.body :=
    show 5 = halfWords loopBackPath by decide
  exact btmReplays Count.init rfl hpath hmsg 100 (by decide)

def jumpToBranch : Image := Image.ofWords fun a =>
  if a = 0 then some 0xff1ff06f else if a = 0xfffffff0 then some 0x00000463 else none

/-- On RV32, where the jump wraps round, the walk goes to an address of 64 bits. -/
theorem not_btmReplays :
    ¬ ∀ (img : Image) (xlen : Xlen) (nm : NexusMessage) (start target : ADDRESS)
    (path : List Visit), BtmPath img xlen (fun _ => True) start path target →
    IsDirectBranch (halfWords path) nm.body → ∀ n, path.length ≤ n →
      ∃ c₁ run, Count.init.setCounts nm.body = (.ok, c₁) ∧
        replayWhile img xlen.archSize nm n .btm c₁ start = .ok run ∧ VisitsBtm run path target := by
  intro hall
  have hlast : BtmPath jumpToBranch .rv32 (fun _ => True) 0xfffffff0 [⟨0xfffffff0, 4, some true⟩]
      0xfffffff8 :=
    .last (by decide) (show flow 0x00000463 .rv32 = .branch 8 by decide) trivial
  have hpath : BtmPath jumpToBranch .rv32 (fun _ => True) 0
      [⟨0, 4, none⟩, ⟨0xfffffff0, 4, some true⟩] 0xfffffff8 :=
    .jump (by decide) (show flow 0xff1ff06f .rv32 = .jump (-16) false by decide) trivial hlast
  obtain ⟨c₁, run, hset, hrun, -⟩ := hall jumpToBranch .rv32
    { NexusMessage.init with body := .directBranch 4 } 0 0xfffffff8 _ hpath rfl 2 le_rfl
  obtain rfl : Count.init.setICnt 4 = c₁ := congrArg Prod.snd hset
  have hfails : (replayWhile jumpToBranch 32 { NexusMessage.init with body := .directBranch 4 } 2
      .btm (Count.init.setICnt 4) 0).isOk = false := by decide
  rw [show replayWhile jumpToBranch 32 _ 2 .btm _ 0 = .ok run from hrun] at hfails
  cases hfails

end TraceDecoder
