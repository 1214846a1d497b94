import TraceDecoder.ExecutionPath
import TraceDecoder.FlowStep
import TraceDecoder.History

/-!
# Steps along a path

One step of the walk takes the path one instruction further when the pending counts give the outcome
of its branch and the return-address stack holds what the path has pushed.
-/

namespace TraceDecoder

open Isa

/-- What `branchHtm` takes from the counts, history bits first. -/
def Count.takeOutcome (c : Count) : Option (Bool × Count) :=
  match c.getCurrentCountType with
  | .history => c.consumeHistory
  | .taken => c.consumeTakenCount.map (true, ·)
  | .notTaken => c.consumeNotTakenCount.map (false, ·)
  | _ => none

/-- The counts give the outcome of a visit, if it is a branch, and become `c'`. -/
def Count.Gives (c : Count) (taken : Option Bool) (c' : Count) : Prop :=
  match taken with
  | none => c' = c
  | some b => c.takeOutcome = some (b, c')

theorem Count.takeOutcome_stack {c c' : Count} {b : Bool} (h : c.takeOutcome = some (b, c')) :
    c'.stack = c.stack ∧ c'.i_cnt = c.i_cnt := by
  unfold Count.takeOutcome consumeHistory consumeTakenCount consumeNotTakenCount at h
  cases hct : c.getCurrentCountType <;> simp only [hct, reduceCtorEq] at h <;> split_ifs at h <;>
    simp only [Option.map_some, Option.map_none, Option.some.injEq, Prod.mk.injEq,
      reduceCtorEq] at h <;>
    (obtain ⟨-, rfl⟩ := h; exact ⟨rfl, rfl⟩)

theorem Count.Gives.stack {c c' : Count} {taken : Option Bool} (h : c.Gives taken c') :
    c'.stack = c.stack := by
  cases taken with
  | none => rw [show c' = c from h]
  | some b => exact (Count.takeOutcome_stack h).1

theorem Count.Gives.i_cnt {c c' : Count} {taken : Option Bool} (h : c.Gives taken c') :
    c'.i_cnt = c.i_cnt := by
  cases taken with
  | none => rw [show c' = c from h]
  | some b => exact (Count.takeOutcome_stack h).2

theorem branchHtm_takeOutcome {nm : NexusMessage} {traceType : TraceType} {c c' : Count}
    {halfWords : ℤ} {next target : ADDRESS} {b : Bool} (h : c.takeOutcome = some (b, c')) :
    Stepped.branchHtm nm traceType c halfWords next target =
      some ⟨if b then target else next, CRFlag.isNone, if b then .taken else .notTaken, traceType,
          c'⟩ := by
  unfold Count.takeOutcome at h
  unfold Stepped.branchHtm
  cases hct : c.getCurrentCountType <;> simp only [hct, reduceCtorEq] at h ⊢
  case history =>
    rw [h]
    cases b <;> rfl
  case taken =>
    obtain ⟨c₁, hc₁, heq⟩ := Option.map_eq_some_iff.mp h
    obtain ⟨rfl, rfl⟩ := Prod.mk.inj heq
    rw [hc₁]
    rfl
  case notTaken =>
    obtain ⟨c₁, hc₁, heq⟩ := Option.map_eq_some_iff.mp h
    obtain ⟨rfl, rfl⟩ := Prod.mk.inj heq
    rw [hc₁]
    rfl

theorem Count.entries_push {c : Count} (h : c.stack.entries.length < 2048) (a : ADDRESS) :
    (c.push a).stack.entries = a :: c.stack.entries :=
  BoundedStack.entries_push h a

theorem Count.pop_of_entries {c : Count} {target : ADDRESS} {stack : List ADDRESS}
    (h : c.stack.entries = target :: stack) : c.pop.1 = target ∧ c.pop.2.stack.entries = stack := by
  simp only [Count.pop, AddrStack.pop, BoundedStack.top, BoundedStack.entries_drop, h]
  exact ⟨rfl, rfl⟩

section
variable {img : Image} {xlen : Xlen} {room : ℕ → Prop} {fits : ADDRESS → Prop} {c c' : Count}
    {nm : NexusMessage} {v : Visit}
  {stack stack' : List ADDRESS} {a : ADDRESS}

/-- The counts after a step: the outcome and the instruction count are
consumed, and the stack is kept. -/
structure StepsTo (img : Image) (xlen : Xlen) (nm : NexusMessage) (c : Count) (v : Visit)
    (c' : Count) (stack' : List ADDRESS) (a : ADDRESS) (s : Stepped) : Prop where
  step : nextAddr img xlen.archSize .htm c nm v.addr = .ok s
  pc : s.pc = a
  brFlag : s.brFlag = v.brFlag
  traceType : s.traceType = .htm
  count : s.count = { c'.consumeICnt (v.size / 2) with stack := s.count.stack }
  stack : s.count.stack.entries = stack'

/-- **One step of the walk** takes the path one instruction further. -/
theorem nextAddr_passes (nm : NexusMessage) (hpass : Passes img xlen room fits stack v stack' a)
    (hroom : ∀ n, room n → n < 2048) (hwrap : ∀ a, fits a → xlen.wrap a = a)
    (hstack : c.stack.entries = stack) (hgives : c.Gives v.taken c') :
    ∃ s, StepsTo img xlen nm c v c' stack' a s := by
  have hstack' : c'.stack.entries = stack := by rw [hgives.stack, hstack]
  cases hpass with
  | sequential hw hf hfits =>
    rw [hwrap _ hfits]
    obtain rfl : c' = c := hgives
    have hstep := nextAddr_eq_ofFlow hw (by rw [hf]; exact Isa.Flow.noConfusion) .htm c' nm
    rw [hf] at hstep
    exact ⟨_, hstep, rfl, rfl, rfl, rfl, hstack⟩
  | jump hw hf hfits =>
    rw [hwrap _ hfits]
    obtain rfl : c' = c := hgives
    have hstep := nextAddr_eq_ofFlow hw (by rw [hf]; exact Isa.Flow.noConfusion) .htm c' nm
    rw [hf] at hstep
    exact ⟨_, hstep, rfl, rfl, rfl, rfl, hstack⟩
  | call hw hf hdepth hfits =>
    rw [hwrap _ hfits]
    obtain rfl : c' = c := hgives
    have hstep := nextAddr_eq_ofFlow hw (by rw [hf]; exact Isa.Flow.noConfusion) .htm c' nm
    rw [hf] at hstep
    refine ⟨_, hstep, rfl, rfl, rfl, rfl, ?_⟩
    rw [← hstack]
    exact Count.entries_push (by rw [hstack]; exact hroom _ hdepth) _
  | branch taken hw hf hfits =>
    rw [hwrap _ hfits]
    have hstep := nextAddr_eq_ofFlow hw (by rw [hf]; exact Isa.Flow.noConfusion) .htm c nm
    rw [hf] at hstep
    simp only [Stepped.ofFlow, Stepped.branch, branchHtm_takeOutcome hgives] at hstep
    cases taken <;> exact ⟨_, hstep, rfl, rfl, rfl, rfl, hstack'⟩
  | ret hw hf hfits =>
    rw [hwrap _ hfits]
    obtain rfl : c' = c := hgives
    have hstep := nextAddr_eq_ofFlow hw (by rw [hf]; exact Isa.Flow.noConfusion) .htm c' nm
    rw [hf] at hstep
    obtain ⟨hpc, hpop⟩ := Count.pop_of_entries hstack
    exact ⟨_, hstep, hpc, rfl, rfl, rfl, hpop⟩
  | @swap stack _ _ target hw hf hfits =>
    rw [hwrap _ hfits]
    obtain rfl : c' = c := hgives
    have hstep := nextAddr_eq_ofFlow hw (by rw [hf]; exact Isa.Flow.noConfusion) .htm c' nm
    rw [hf] at hstep
    obtain ⟨hpc, hpop⟩ := Count.pop_of_entries hstack
    refine ⟨_, hstep, hpc, rfl, rfl, rfl, ?_⟩
    have hbound := c'.stack.bound
    rw [hstack, List.length_cons] at hbound
    rw [← hpop]
    exact Count.entries_push (by rw [hpop]; omega) _

/-- The last instruction of a path has no next address. -/
theorem nextAddr_escapes (nm : NexusMessage) (hesc : Escapes img xlen stack v)
    (hstack : c.stack.entries = stack) :
    ∃ s, nextAddr img xlen.archSize .htm c nm v.addr = .ok s ∧ s.pc = -1 ∧ s.brFlag = v.brFlag ∧
      s.traceType = .htm ∧ s.count =
        { c.consumeICnt (v.size / 2) with stack := s.count.stack } := by
  cases hesc with
  | jump hw hf =>
    have hstep := nextAddr_eq_ofFlow hw (by rw [hf]; exact Isa.Flow.noConfusion) .htm c nm
    rw [hf] at hstep
    exact ⟨_, hstep, rfl, rfl, rfl, rfl⟩
  | call hw hf =>
    have hstep := nextAddr_eq_ofFlow hw (by rw [hf]; exact Isa.Flow.noConfusion) .htm c nm
    rw [hf] at hstep
    exact ⟨_, hstep, rfl, rfl, rfl, rfl⟩
  | ret hw hf =>
    have hstep := nextAddr_eq_ofFlow hw (by rw [hf]; exact Isa.Flow.noConfusion) .htm c nm
    rw [hf] at hstep
    have hpc : c.pop.1 = -1 := by
      simp only [Count.pop, AddrStack.pop, BoundedStack.top, hstack]
      rfl
    exact ⟨_, hstep, hpc, rfl, rfl, rfl⟩
  | swap hw hf =>
    have hstep := nextAddr_eq_ofFlow hw (by rw [hf]; exact Isa.Flow.noConfusion) .htm c nm
    rw [hf] at hstep
    have hpc : c.pop.1 = -1 := by
      simp only [Count.pop, AddrStack.pop, BoundedStack.top, hstack]
      rfl
    exact ⟨_, hstep, hpc, rfl, rfl, rfl⟩
  | trapReturn hw hf =>
    have hstep := nextAddr_eq_ofFlow hw (by rw [hf]; exact Isa.Flow.noConfusion) .htm c nm
    rw [hf] at hstep
    exact ⟨_, hstep, rfl, rfl, rfl, rfl⟩

end

end TraceDecoder
