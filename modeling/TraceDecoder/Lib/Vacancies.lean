import Mathlib.Data.List.Basic
import Mathlib.Data.Option.Basic

/-!
# First come, first served

Ranges of cells are claimed one after the other. A claim fills the cells of its range that are still
empty, so that in the end a cell belongs to the first claim that it is in.
-/

namespace Vacancies

variable {α : Type}

structure Claim (α : Type) where
  first : ℕ
  count : ℕ
  owner : α

def Claim.Has (c : Claim α) (i : ℕ) : Prop := c.first ≤ i ∧ i < c.first + c.count

instance (c : Claim α) (i : ℕ) : Decidable (c.Has i) := inferInstanceAs (Decidable (_ ∧ _))

def claim (cells : ℕ → Option α) (c : Claim α) : ℕ → Option α :=
  fun i => (cells i).or (if c.Has i then some c.owner else none)

theorem claim_succ (cells : ℕ → Option α) (first count : ℕ) (a : α) :
    claim cells ⟨first, count + 1, a⟩ = claim
      (claim cells ⟨first, 1, a⟩) ⟨first + 1, count, a⟩ := by
  funext i
  unfold claim
  cases cells i with
  | some a' => rfl
  | none =>
    rw [Option.none_or, Option.none_or]
    by_cases hi : i = first
    · have hone : (⟨first, 1, a⟩ : Claim α).Has i := by simp [Claim.Has, hi]
      have hall : (⟨first, count + 1, a⟩ : Claim α).Has i := by simp [Claim.Has, hi]
      rw [if_pos hone, if_pos hall]
      rfl
    · have hone : ¬(⟨first, 1, a⟩ : Claim α).Has i := by
        unfold Claim.Has
        dsimp only
        omega
      have hiff : (⟨first, count + 1, a⟩ : Claim α).Has i ↔
          (⟨first + 1, count, a⟩ : Claim α).Has i := by
        unfold Claim.Has
        dsimp only
        omega
      rw [if_neg hone, Option.none_or]
      exact if_congr hiff rfl rfl

@[simp] theorem claim_zero (cells : ℕ → Option α) (first : ℕ) (a : α) :
    claim cells ⟨first, 0, a⟩ = cells := by
  funext i
  have hnot : ¬(⟨first, 0, a⟩ : Claim α).Has i := by
    unfold Claim.Has
    dsimp only
    omega
  rw [claim, if_neg hnot, Option.or_none]

theorem foldl_claim (cells : ℕ → Option α) (cs : List (Claim α)) (i : ℕ) :
    cs.foldl claim cells i = (cells i).or ((cs.find? (·.Has i)).map Claim.owner) := by
  induction cs generalizing cells with
  | nil => simp
  | cons c cs ih =>
    rw [List.foldl_cons, ih, claim, List.find?_cons, Option.or_assoc]
    by_cases hhas : c.Has i <;> simp [hhas]

end Vacancies
