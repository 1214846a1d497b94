import Mathlib.Logic.Function.Basic
import TraceDecoder.Count

/-!
# Loading the counts of a message

`setCounts` over the counts of all cores. The instruction count is accumulated before the branches
are looked at, so it stays when they are refused. Nothing else does: a message carries branches of
one kind at most, so that no setter runs after one that took some.
-/

namespace TraceDecoder

namespace Count

variable {c : Count}

/-- What a message adds to the instruction count: nothing if its counts are not known. -/
def loadedICnt (body : MessageBody) : ℤ := (newCounts body).elim 0 (·.i_cnt)

theorem setICnt_zero : c.setICnt 0 = c := by
  rw [setICnt, Int.add_zero]

theorem unchanged_of_refused {refused : Prop} [Decidable refused] {c' : Count}
    (herr : (if refused then (DQErr.err, c) else (.ok, c')).1 ≠ .ok) :
    (if refused then (DQErr.err, c) else (.ok, c')).2 = c := by
  split_ifs at herr ⊢
  · rfl
  · exact absurd rfl herr

theorem setHistory_of_err {hist : BitVec 64} (herr : (c.setHistory hist).1 ≠ .ok) :
    (c.setHistory hist).2 = c := by
  rw [setHistory] at herr ⊢
  exact unchanged_of_refused herr

theorem setTakenCount_of_err {takenCnt : ℤ} (herr : (c.setTakenCount takenCnt).1 ≠ .ok) :
    (c.setTakenCount takenCnt).2 = c := by
  rw [setTakenCount] at herr ⊢
  exact unchanged_of_refused herr

theorem setNotTakenCount_of_err {notTakenCnt : ℤ}
    (herr : (c.setNotTakenCount notTakenCnt).1 ≠ .ok) :
    (c.setNotTakenCount notTakenCnt).2 = c := by
  rw [setNotTakenCount] at herr ⊢
  exact unchanged_of_refused herr

def NewCounts.Single (n : NewCounts) : Prop :=
  n.taken = 0 ∧ n.notTaken = 0 ∨ n.history = 0 ∧ n.notTaken = 0 ∨ n.history = 0 ∧ n.taken = 0

theorem newCounts_single {body : MessageBody} {n : NewCounts} (hnew : newCounts body = some n) :
    n.Single := by
  unfold newCounts at hnew
  split at hnew
  all_goals try split at hnew
  all_goals cases hnew
  all_goals simp [NewCounts.Single]

/-- What the first setter does stays; the one that fails is the last and does nothing. -/
theorem addCounts_of_err {n : NewCounts} (hsingle : n.Single) (herr : (c.addCounts n).1 ≠ .ok) :
    (c.addCounts n).2 = c.setICnt n.i_cnt := by
  have hicnt : (if n.i_cnt ≠ 0 then c.setICnt n.i_cnt else c) = c.setICnt n.i_cnt := by
    split_ifs with hne
    · rfl
    · rw [not_not.mp hne, setICnt_zero]
  rw [addCounts, hicnt] at herr ⊢
  generalize c.setICnt n.i_cnt = loaded at herr ⊢
  rcases hsingle with ⟨htaken, hnot⟩ | ⟨hhist, hnot⟩ | ⟨hhist, htaken⟩
  · by_cases hhist : n.history = 0
    · simp [hhist, htaken, hnot] at herr
    · simp only [hhist, htaken, hnot, ne_eq, not_false_eq_true, if_true, not_true, if_false] at herr ⊢
      by_cases hset : (loaded.setHistory n.history).1 = .ok
      · simp [hset] at herr
      · simp [hset, setHistory_of_err hset]
  · by_cases htaken : n.taken = 0
    · simp [hhist, htaken, hnot] at herr
    · simp only [hhist, htaken, hnot, ne_eq, not_false_eq_true, if_true, not_true, if_false] at herr ⊢
      by_cases hset : (loaded.setTakenCount n.taken).1 = .ok
      · simp [hset] at herr
      · simp [hset, setTakenCount_of_err hset]
  · by_cases hnot : n.notTaken = 0
    · simp [hhist, htaken, hnot] at herr
    · simp only [hhist, htaken, hnot, ne_eq, not_false_eq_true, if_true, not_true, if_false] at herr ⊢
      exact setNotTakenCount_of_err herr

end Count

/-- The values of an `int`. -/
def IsInt (n : ℤ) : Prop := -2 ^ 31 ≤ n ∧ n < 2 ^ 31

instance : DecidablePred IsInt :=
  fun n => inferInstanceAs (Decidable (-2 ^ 31 ≤ n ∧ n < 2 ^ 31))

/-- The arrays of the class `Count`, by core. -/
abbrev Counts := Fin DQR_MAXCORES → Count

namespace Counts

open Count

def init : Counts := fun _ => Count.init

/-- `Count::setCounts`, which changes the cells of the message's core. A message without counts
touches none. There is no result where the call indexes behind the arrays or the sum of the
instruction counts is no `int`. -/
def setCounts (counts : Counts) (nm : NexusMessage) : Option (DQErr × Counts) :=
  match newCounts nm.body with
  | none => some (.err, counts)
  | some n =>
    if n = {} then some (.ok, counts)
    else if h : nm.core < DQR_MAXCORES then
      let c := counts ⟨nm.core, h⟩
      if IsInt (c.i_cnt + n.i_cnt) then
        some ((c.addCounts n).1, Function.update counts ⟨nm.core, h⟩ (c.addCounts n).2)
      else none
    else none

/-- The counts that a message carries are for one of the cores, and its
instruction count can be added. -/
def Inside (counts : Counts) (nm : NexusMessage) : Prop :=
  ∀ n, newCounts nm.body = some n → n ≠ {} →
    ∃ h : nm.core < DQR_MAXCORES, IsInt ((counts ⟨nm.core, h⟩).i_cnt + n.i_cnt)

/-- The counts before a call, with what the message adds to the instruction count of its core. -/
def loaded (counts : Counts) (nm : NexusMessage) : Counts := fun core =>
  if nm.core = core then (counts core).setICnt (loadedICnt nm.body) else counts core

theorem loaded_eq_self {counts : Counts} {nm : NexusMessage} (h : loadedICnt nm.body = 0) :
    counts.loaded nm = counts := by
  funext core
  rw [loaded, h, setICnt_zero, ite_self]

theorem update_eq_loaded {counts : Counts} {nm : NexusMessage} (h : nm.core < DQR_MAXCORES) :
    Function.update counts ⟨nm.core, h⟩
        ((counts ⟨nm.core, h⟩).setICnt (loadedICnt nm.body)) = counts.loaded nm := by
  funext core
  by_cases hcore : nm.core = core
  · obtain rfl : core = ⟨nm.core, h⟩ := Fin.ext hcore.symm
    rw [Function.update_self, loaded, if_pos rfl]
  · rw [Function.update_of_ne fun heq => hcore (congrArg Fin.val heq).symm, loaded, if_neg hcore]

/-- **What a refused call leaves**: the counts before the call, but for an instruction count that
the message has added to. -/
theorem setCounts_keeps_rest (counts : Counts) (nm : NexusMessage) (hinside : counts.Inside nm) :
    ∃ rc counts', counts.setCounts nm = some (rc, counts') ∧
      (rc ≠ .ok → counts' = counts.loaded nm) := by
  rw [setCounts]
  cases hnew : newCounts nm.body with
  | none =>
    have hnone : loadedICnt nm.body = 0 := by rw [loadedICnt, hnew, Option.elim_none]
    exact ⟨.err, counts, rfl, fun _ => (loaded_eq_self hnone).symm⟩
  | some n =>
    by_cases hempty : n = {}
    · exact ⟨.ok, counts, if_pos hempty, fun herr => absurd rfl herr⟩
    · obtain ⟨hcore, hsum⟩ := hinside n hnew hempty
      have hloaded : loadedICnt nm.body = n.i_cnt := by rw [loadedICnt, hnew, Option.elim_some]
      simp only [if_neg hempty, dif_pos hcore, if_pos hsum]
      refine ⟨_, _, rfl, fun herr => ?_⟩
      rw [addCounts_of_err (newCounts_single hnew) herr, ← hloaded, update_eq_loaded]

/-- The counts after the messages `nms`, from the start. -/
def load (nms : List NexusMessage) : Option Counts :=
  nms.foldlM (fun counts nm => (counts.setCounts nm).map Prod.snd) init

def pendingBranch : NexusMessage := { NexusMessage.init with body := .resourceFull (.history 3) }

def refusedBranch : NexusMessage := { NexusMessage.init with body := .indirectHistory 0 5 0x80 2 }

def firstCore : Fin DQR_MAXCORES := ⟨0, by decide⟩

def branchPending : Counts :=
  Function.update init firstCore { Count.init with history := 3, histBit := 0 }

theorem load_pendingBranch : load [pendingBranch] = some branchPending := rfl

theorem setCounts_keeps_rest_refusedBranch :
    branchPending.setCounts refusedBranch = some (.err, branchPending.loaded refusedBranch) ∧
      (branchPending.loaded refusedBranch firstCore).i_cnt = 5 := by
  have hinside : branchPending.Inside refusedBranch := by
    intro n hn _
    cases hn
    exact ⟨by decide, by decide⟩
  obtain ⟨rc, counts', hrun, hrest⟩ := setCounts_keeps_rest branchPending refusedBranch hinside
  have herr : (branchPending.setCounts refusedBranch).map Prod.fst = some .err := rfl
  rw [hrun] at herr
  cases herr
  rw [hrun, hrest (by decide)]
  exact ⟨rfl, rfl⟩

/-- The five half-words are counted although the branch is refused. A message of a core behind the
arrays, or one whose count goes past the largest `int`, has no result at all. -/
theorem not_setCounts_atomic :
    (¬ ∀ (nms : List NexusMessage) (nm : NexusMessage) (counts counts' : Counts) (rc : DQErr),
      load nms = some counts → counts.setCounts nm = some (rc, counts') → rc ≠ .ok →
        ∀ core, (counts' core).i_cnt = (counts core).i_cnt ∧
          (counts' core).history = (counts core).history ∧
          (counts' core).histBit = (counts core).histBit ∧
          (counts' core).takenCount = (counts core).takenCount ∧
          (counts' core).notTakenCount = (counts core).notTakenCount) ∧
      init.setCounts { refusedBranch with coreId := 16 } = none ∧
      load [{ NexusMessage.init with body := .directBranch (2 ^ 31 - 1) },
        { NexusMessage.init with body := .indirectHistory 0 1 0x80 2 }] = none := by
  refine ⟨fun hatomic => ?_, rfl, rfl⟩
  obtain ⟨hrun, hfive⟩ := setCounts_keeps_rest_refusedBranch
  have hkept := (hatomic _ _ _ _ _ load_pendingBranch hrun (by decide) firstCore).1
  rw [hfive] at hkept
  exact absurd hkept (by decide)

end Counts

end TraceDecoder
