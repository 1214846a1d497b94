import Mathlib.Logic.Function.Basic
import Mathlib.Tactic.Common

/-!
# Output that follows a grammar

A grammar is a step relation over the symbols that it reads. A machine writes to it along a relation
between its states and the places in the grammar; several machines that take turns each write to
their own.
-/

namespace Grammar

variable {κ ε : Type} (next : κ → ε → κ → Prop)

inductive Run : κ → List ε → κ → Prop
  | nil (k : κ) : Run k [] k
  | cons {k k' k'' : κ} {e : ε} {es : List ε} (hstep : next k e k') (hrun : Run k' es k'') :
    Run k (e :: es) k''

variable {next} {k k' k'' : κ} {e : ε} {es es' : List ε}

theorem Run.single (hstep : next k e k') : Run next k [e] k' := .cons hstep (.nil k')

theorem Run.append (h : Run next k es k') (h' : Run next k' es' k'') :
    Run next k (es ++ es') k'' := by
  induction h with
  | nil => exact h'
  | cons hstep hrun ih => exact .cons hstep (ih h')

theorem Run.split (h : Run next k (es ++ es') k'') :
    ∃ k', Run next k es k' ∧ Run next k' es' k'' := by
  induction es generalizing k with
  | nil => exact ⟨k, .nil k, h⟩
  | cons e es ih =>
    cases h with
    | cons hstep hrun =>
      obtain ⟨k', hfirst, hrest⟩ := ih hrun
      exact ⟨k', .cons hstep hfirst, hrest⟩

/-- What each step keeps of the symbols that have been read and the place. -/
theorem Run.invariant {P : List ε → κ → Prop}
    (hP : ∀ es k e k', P es k → next k e k' → P (es ++ [e]) k') (h : Run next k es' k')
    (hstart : P es k) : P (es ++ es') k' := by
  induction h generalizing es with
  | nil => rwa [List.append_nil]
  | cons hstep hrun ih => simpa using ih (hP _ _ _ _ hstart hstep)

section Machine

variable {σ : Type} (next) (stands : σ → κ → Prop)

/-- Wherever the first state stands, the output leads to where the second one does. -/
def Writes (s : σ) (es : List ε) (s' : σ) : Prop :=
  ∀ k, stands s k → ∃ k', Run next k es k' ∧ stands s' k'

variable {next stands} {s s' s'' : σ}

theorem Writes.refl (s : σ) : Writes next stands s [] s := fun k hk => ⟨k, .nil k, hk⟩

theorem Writes.append (h : Writes next stands s es s') (h' : Writes next stands s' es' s'') :
    Writes next stands s (es ++ es') s'' := by
  intro k hk
  obtain ⟨k', hrun, hk'⟩ := h k hk
  obtain ⟨k'', hrun', hk''⟩ := h' k' hk'
  exact ⟨k'', hrun.append hrun', hk''⟩

variable {ι : Type} [DecidableEq ι] {machines machines' machines'' : ι → σ}
    {out out' : List (ι × ε)}

def outputOf (i : ι) (out : List (ι × ε)) : List ε := (out.filter (·.1 = i)).map Prod.snd

theorem outputOf_append (i : ι) (out out' : List (ι × ε)) :
    outputOf i (out ++ out') = outputOf i out ++ outputOf i out' := by
  simp [outputOf]

theorem outputOf_tagged (i j : ι) (es : List ε) :
    outputOf i (es.map (j, ·)) = if j = i then es else [] := by
  by_cases hj : j = i
  · have hall : (es.map (j, ·)).filter (·.1 = i) = es.map (j, ·) :=
      List.filter_eq_self.mpr (by simp [hj])
    rw [if_pos hj, outputOf, hall, List.map_map]
    exact List.map_id es
  · have hnone : (es.map (j, ·)).filter (·.1 = i) = [] := List.filter_eq_nil_iff.mpr (by simp [hj])
    rw [if_neg hj, outputOf, hnone]
    rfl

variable (next stands) in
def WritesAll (machines : ι → σ) (out : List (ι × ε)) (machines' : ι → σ) : Prop :=
  ∀ i, Writes next stands (machines i) (outputOf i out) (machines' i)

theorem WritesAll.refl (machines : ι → σ) :
    WritesAll next stands machines ([] : List (ι × ε)) machines := fun i => .refl (machines i)

theorem WritesAll.append (h : WritesAll next stands machines out machines')
    (h' : WritesAll next stands machines' out' machines'') :
    WritesAll next stands machines (out ++ out') machines'' := by
  intro i
  rw [outputOf_append]
  exact (h i).append (h' i)

theorem WritesAll.turn {i : ι} (h : Writes next stands (machines i) es s) :
    WritesAll next stands machines (es.map (i, ·)) (Function.update machines i s) := by
  intro j
  rw [outputOf_tagged]
  by_cases hj : i = j
  · subst hj
    rw [if_pos rfl, Function.update_self]
    exact h
  · rw [if_neg hj, Function.update_of_ne (Ne.symm hj)]
    exact .refl (machines j)

end Machine

end Grammar
