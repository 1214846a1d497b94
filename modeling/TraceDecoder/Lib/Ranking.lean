import Mathlib.Data.Prod.Lex
import Mathlib.Order.WellFounded

/-!
# Ranks

A run that lowers a rank again and again does so a finite number of times only.
-/

variable {α β γ : Type*}

/-- From some step on the rank stays as it is, if it never rises. -/
theorem settles [Preorder β] [WellFoundedLT β] (rank : ℕ → β) {stays : ℕ → Prop}
    (h : ∀ n, rank (n + 1) < rank n ∨ rank (n + 1) = rank n ∧ stays n) :
    ∃ N, ∀ n, N ≤ n → rank n = rank N ∧ stays n := by
  obtain ⟨_, ⟨N, rfl⟩, hmin⟩ :=
    (wellFounded_lt (α := β)).has_min (Set.range rank) (Set.range_nonempty rank)
  have hrank (n : ℕ) (hn : N ≤ n) : rank n = rank N := by
    induction n, hn using Nat.le_induction with
    | base => rfl
    | succ n _ ih =>
      rcases h n with hlt | ⟨heq, -⟩
      · exact absurd (ih ▸ hlt) (hmin _ ⟨n + 1, rfl⟩)
      · exact heq.trans ih
  refine ⟨N, fun n hn => ⟨hrank n hn, ?_⟩⟩
  rcases h n with hlt | ⟨-, hstays⟩
  · rw [hrank n hn, hrank (n + 1) (by omega)] at hlt
    exact absurd hlt (lt_irrefl _)
  · exact hstays

/-! ### Ranks that are compared one after the other -/

theorem rank_lt_of_fst [LT α] [LT β] {a a' : α} {b b' : β} (h : a' < a) :
    toLex (a', b') < toLex (a, b) :=
  Prod.Lex.lt_iff.mpr (.inl h)

theorem rank_lt_of_snd [LT α] [LT β] {a a' : α} {b b' : β} (ha : a' = a) (h : b' < b) :
    toLex (a', b') < toLex (a, b) :=
  Prod.Lex.lt_iff.mpr (.inr ⟨ha, h⟩)
