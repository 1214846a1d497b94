import Mathlib.Tactic.Common
import Mathlib.Logic.Function.Iterate

/-!
# Stacks with a capacity

A stack that refuses to grow beyond its capacity, next to the plain list it stands in for. As long
as no push meets a full stack the two give the same answers; after a refused push they need not.
-/

structure BoundedStack (α : Type) (cap : ℕ) where
  entries : List α
  bound : entries.length ≤ cap
  deriving DecidableEq, Repr

namespace BoundedStack

variable {α : Type} {cap : ℕ}

@[ext] theorem ext {s t : BoundedStack α cap} (h : s.entries = t.entries) : s = t := by
  cases s
  cases t
  congr

def empty : BoundedStack α cap := ⟨[], Nat.zero_le cap⟩

def full (s : BoundedStack α cap) : Bool := decide (cap ≤ s.entries.length)

def push (s : BoundedStack α cap) (a : α) : BoundedStack α cap :=
  if h : s.entries.length < cap then ⟨a :: s.entries, h⟩ else s

def top (s : BoundedStack α cap) : Option α := s.entries.head?

def drop (s : BoundedStack α cap) : BoundedStack α cap :=
  ⟨s.entries.tail, by rw [List.length_tail]; exact Nat.le_trans (Nat.sub_le _ _) s.bound⟩

@[simp] theorem entries_drop (s : BoundedStack α cap) : s.drop.entries = s.entries.tail := rfl

theorem entries_push {s : BoundedStack α cap} (h : s.entries.length < cap) (a : α) :
    (s.push a).entries = a :: s.entries := by
  rw [push, dif_pos h]

theorem push_full {s : BoundedStack α cap} (h : cap ≤ s.entries.length) (a : α) : s.push a = s := by
  rw [push, dif_neg (Nat.not_lt.mpr h)]

/-! ### Runs -/

inductive Op (α : Type)
  | push (a : α)
  | pop
  deriving DecidableEq, Repr

def popped (s : BoundedStack α cap) : List (Op α) → List (Option α)
  | [] => []
  | .push a :: ops => popped (s.push a) ops
  | .pop :: ops => s.top :: popped s.drop ops

/-- What the pops of a run give when nothing is ever refused: each the
value of its matching push. -/
def matching (l : List α) : List (Op α) → List (Option α)
  | [] => []
  | .push a :: ops => matching (a :: l) ops
  | .pop :: ops => l.head? :: matching l.tail ops

/-- No push of the run is made at depth `cap`, counting from depth `d`. -/
def Fits (cap : ℕ) : ℕ → List (Op α) → Prop
  | _, [] => True
  | d, .push _ :: ops => d < cap ∧ Fits cap (d + 1) ops
  | d, .pop :: ops => Fits cap (d - 1) ops

instance decidableFits (cap : ℕ) : ∀ (d : ℕ) (ops : List (Op α)), Decidable (Fits cap d ops)
  | _, [] => inferInstanceAs (Decidable True)
  | d, .push _ :: ops =>
    have := decidableFits cap (d + 1) ops
    inferInstanceAs (Decidable (d < cap ∧ Fits cap (d + 1) ops))
  | d, .pop :: ops => decidableFits cap (d - 1) ops

/-- A run that fits cannot tell the bounded stack from the unbounded one. -/
theorem popped_eq_matching (s : BoundedStack α cap) (ops : List (Op α))
    (h : Fits cap s.entries.length ops) : s.popped ops = matching s.entries ops := by
  induction ops generalizing s with
  | nil => rfl
  | cons op ops ih =>
    cases op with
    | push a =>
      obtain ⟨hroom, hrest⟩ := h
      have hentries := entries_push hroom a
      rw [popped, matching, ih (s.push a) (by rw [hentries]; exact hrest), hentries]
    | pop =>
      rw [popped, matching, ih s.drop (by rw [entries_drop, List.length_tail]; exact h)]
      rfl

theorem popped_append_push (s : BoundedStack α cap) (n : ℕ) (a : α) (ops : List (Op α)) :
    s.popped (List.replicate n (.push a) ++ ops) = ((push · a)^[n] s).popped ops := by
  induction n generalizing s with
  | zero => rfl
  | succ n ih =>
    rw [List.replicate_succ, List.cons_append, popped, ih, Function.iterate_succ_apply]

theorem entries_push_iterate (s : BoundedStack α cap) (n : ℕ) (a : α)
    (h : s.entries.length + n ≤ cap) :
    ((push · a)^[n] s).entries = List.replicate n a ++ s.entries := by
  induction n generalizing s with
  | zero => rfl
  | succ n ih =>
    have hentries := entries_push (s := s) (by omega) a
    rw [Function.iterate_succ_apply, ih (s.push a) (by rw [hentries, List.length_cons]; omega),
      hentries, List.replicate_succ', List.append_assoc, List.singleton_append]

end BoundedStack
