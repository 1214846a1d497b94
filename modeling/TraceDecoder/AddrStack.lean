import Mathlib.Data.List.Forall2
import TraceDecoder.Basic
import TraceDecoder.Lib.BoundedStack

/-!
# The return-address stack

`push` refuses an address when 2048 are on the stack and says so in its return code, which no caller
looks at. From then on the pops of the calls below are answered with the addresses of other calls.
-/

namespace TraceDecoder

/-- `stack[sp .. stackSize)`, top first, for the size every `AddrStack` in the decoder has. -/
abbrev AddrStack := BoundedStack ADDRESS 2048

namespace AddrStack

def init : AddrStack := BoundedStack.empty

def push (s : AddrStack) (addr : ADDRESS) : ℤ × AddrStack :=
  (if s.full then 1 else 0, BoundedStack.push s addr)

def pop (s : AddrStack) : ADDRESS × AddrStack :=
  (s.top.getD (-1), s.drop)

def reset (_ : AddrStack) : AddrStack := init

def getNumOnStack (s : AddrStack) : ℕ := s.entries.length

end AddrStack

/-- The stack operations `nextAddr` issues: for calls, returns and swaps. -/
inductive CallOp
  | call (returnAddr : ADDRESS)
  | ret
  | swap (returnAddr : ADDRESS)
  deriving DecidableEq, Repr

namespace CallOp

def popResults (s : AddrStack) : List CallOp → List ADDRESS
  | [] => []
  | call a :: ops => popResults (s.push a).2 ops
  | ret :: ops => s.pop.1 :: popResults s.pop.2 ops
  | swap a :: ops => s.pop.1 :: popResults (s.pop.2.push a).2 ops

def stackOps : List CallOp → List (BoundedStack.Op ADDRESS)
  | [] => []
  | call a :: ops => .push a :: stackOps ops
  | ret :: ops => .pop :: stackOps ops
  | swap a :: ops => .pop :: .push a :: stackOps ops

def matchingCalls (ops : List CallOp) : List (Option ADDRESS) :=
  BoundedStack.matching [] (stackOps ops)

def PendingFits (ops : List CallOp) : Prop := BoundedStack.Fits 2048 0 (stackOps ops)

instance (ops : List CallOp) : Decidable (PendingFits ops) :=
  inferInstanceAs (Decidable (BoundedStack.Fits 2048 0 (stackOps ops)))

/-- A prediction is right when it is the matching address, or no prediction at all. -/
def RightOrUnknown (predicted : ADDRESS) (matched : Option ADDRESS) : Prop :=
  matched = some predicted ∨ predicted = -1

theorem popResults_eq (s : AddrStack) (ops : List CallOp) :
    popResults s ops = (BoundedStack.popped s (stackOps ops)).map (·.getD (-1)) := by
  induction ops generalizing s with
  | nil => rfl
  | cons op ops ih =>
    cases op <;> simp only [popResults, stackOps, BoundedStack.popped, List.map_cons,
      ih, AddrStack.push, AddrStack.pop]

theorem rightOrUnknown_getD (matched : Option ADDRESS) :
    RightOrUnknown (matched.getD (-1)) matched := by
  cases matched with
  | none => exact .inr rfl
  | some a => exact .inl rfl

/-- **The stack predicts no wrong return** in a run that never calls with 2048 calls pending. -/
theorem popResults_rightOrUnknown (ops : List CallOp) (h : PendingFits ops) :
    List.Forall₂ RightOrUnknown (popResults AddrStack.init ops) (matchingCalls ops) := by
  rw [popResults_eq, BoundedStack.popped_eq_matching AddrStack.init (stackOps ops) h, matchingCalls]
  rw [List.forall₂_map_left_iff]
  exact List.forall₂_same.mpr fun matched _ => rightOrUnknown_getD matched

/-- A call, a call inside it, a return, a swap and two more returns, the last without a call. -/
theorem popResults_rightOrUnknown_nested :
    List.Forall₂ RightOrUnknown
      (popResults AddrStack.init [call 0x100, call 0x200, ret, swap 0x300, ret, ret])
      (matchingCalls [call 0x100, call 0x200, ret, swap 0x300, ret, ret]) :=
  popResults_rightOrUnknown _ (by decide)

def overflowingCalls : List CallOp := List.replicate 2048 (call 0x1004) ++ [call 0x2004, ret]

theorem stackOps_replicate_call (n : ℕ) (a : ADDRESS) (ops : List CallOp) :
    stackOps (List.replicate n (call a) ++ ops) = List.replicate n (.push a) ++ stackOps ops := by
  induction n with
  | zero => rfl
  | succ n ih => simp only [List.replicate_succ, List.cons_append, stackOps, ih]

theorem matching_replicate_push (n : ℕ) (a : ADDRESS) (l : List ADDRESS)
    (ops : List (BoundedStack.Op ADDRESS)) :
    BoundedStack.matching l (List.replicate n (.push a) ++ ops)
      = BoundedStack.matching (List.replicate n a ++ l) ops := by
  induction n generalizing l with
  | zero => rfl
  | succ n ih =>
    rw [List.replicate_succ, List.cons_append, BoundedStack.matching, ih, List.replicate_succ',
      List.append_assoc, List.singleton_append]

/-- The inner call returns to the wrong place. -/
theorem popResults_overflow :
    ¬ ∀ ops, List.Forall₂ RightOrUnknown (popResults AddrStack.init ops) (matchingCalls ops) := by
  intro hall
  have hpushed : ((BoundedStack.push · 0x1004)^[2048] AddrStack.init).entries
      = List.replicate 2048 (0x1004 : ADDRESS) := by
    rw [BoundedStack.entries_push_iterate _ _ _ le_rfl]
    exact List.append_nil _
  have hresult : popResults AddrStack.init overflowingCalls = [0x1004] := by
    rw [popResults_eq, overflowingCalls, stackOps_replicate_call, BoundedStack.popped_append_push]
    simp only [stackOps, BoundedStack.popped]
    rw [BoundedStack.push_full (by rw [hpushed, List.length_replicate]), BoundedStack.top, hpushed]
    rfl
  have hmatch : matchingCalls overflowingCalls = [some 0x2004] := by
    rw [matchingCalls, overflowingCalls, stackOps_replicate_call, matching_replicate_push]
    rfl
  have hbad := hall overflowingCalls
  rw [hresult, hmatch, List.forall₂_cons] at hbad
  obtain ⟨h | h, -⟩ := hbad
  · exact absurd h (by decide)
  · exact absurd h (by decide)

end CallOp

end TraceDecoder
