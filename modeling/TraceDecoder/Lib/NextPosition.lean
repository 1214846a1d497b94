import Mathlib.Tactic.Common

/-!
# The next position

The first position at which a predicate holds, from a start up to an end. A search over pieces one
after the other finds the first position of the whole.
-/

/-- The first position from `g` on and before `e` at which `f` holds. -/
def nextPosition (f : ℕ → Bool) (g e : ℕ) : Option ℕ := (List.range' g (e - g)).find? f

def positions (f : ℕ → Bool) (g e : ℕ) : List ℕ := (List.range' g (e - g)).filter f

section
variable {f f' : ℕ → Bool} {g m e p : ℕ}

theorem nextPosition_eq_some_iff : nextPosition f g e = some p ↔ g ≤ p ∧ p < e ∧ f p = true ∧
    ∀ q, g ≤ q → q < p → f q = false := by
  rw [nextPosition, List.find?_range'_eq_some, List.mem_range'_1]
  constructor
  · rintro ⟨hp, ⟨hge, hlt⟩, hfirst⟩
    exact ⟨hge, by omega, hp, fun q hq hqp => by simpa using hfirst q hq hqp⟩
  · rintro ⟨hge, hlt, hp, hfirst⟩
    exact ⟨hp, ⟨hge, by omega⟩, fun q hq hqp => by simpa using hfirst q hq hqp⟩

theorem nextPosition_eq_none_iff : nextPosition f g e = none ↔ ∀ q, g ≤ q → q < e →
    f q = false := by
  rw [nextPosition, List.find?_range'_eq_none]
  constructor
  · exact fun h q hq hqe => by simpa using h q hq (by omega)
  · exact fun h q hq hqe => by simpa using h q hq (by omega)

theorem nextPosition_of_le (h : e ≤ g) : nextPosition f g e = none :=
  nextPosition_eq_none_iff.mpr fun q hq hqe => by omega

theorem nextPosition_append (hg : g ≤ m) (he : m ≤ e) :
    nextPosition f g e = (nextPosition f g m).or (nextPosition f m e) := by
  have hsplit : List.range' g (e - g) = List.range' g (m - g) ++ List.range' m (e - m) := by
    have happend := List.range'_append_1 (s := g) (m := m - g) (n := e - m)
    rw [show g + (m - g) = m by omega, show m - g + (e - m) = e - g by omega] at happend
    exact happend.symm
  rw [nextPosition, hsplit, List.find?_append]
  rfl

theorem nextPosition_congr (h : ∀ q, g ≤ q → q < e → f q = f' q) :
    nextPosition f g e = nextPosition f' g e := by
  cases hf : nextPosition f' g e with
  | none => exact nextPosition_eq_none_iff.mpr fun q hq hqe =>
    (h q hq hqe).trans (nextPosition_eq_none_iff.mp hf q hq hqe)
  | some p =>
    obtain ⟨hge, hlt, hp, hfirst⟩ := nextPosition_eq_some_iff.mp hf
    exact nextPosition_eq_some_iff.mpr ⟨hge, hlt, (h p hge hlt).trans hp, fun q hq hqp =>
      (h q hq (by omega)).trans (hfirst q hq hqp)⟩

/-- The first position in a piece, counted from the start of the piece. -/
theorem nextPosition_shift (a : ℕ) :
    nextPosition f (a + g) (a + e) = (nextPosition (fun q => f (a + q)) g e).map (a + ·) := by
  rw [nextPosition, nextPosition, Nat.add_sub_add_left, ← List.map_add_range', List.find?_map]
  rfl

/-- The first position is where the list of all begins. -/
theorem positions_of_next (h : nextPosition f g e = some p) :
    positions f g e = p :: positions f (p + 1) e := by
  obtain ⟨hge, hlt, hp, hfirst⟩ := nextPosition_eq_some_iff.mp h
  have hsplit : List.range' g (e - g) = List.range' g (p - g) ++ p :: List.range' (p + 1)
      (e - (p + 1)) := by
    have happend := List.range'_append_1 (s := g) (m := p - g) (n := e - p)
    rw [show g + (p - g) = p by omega, show p - g + (e - p) = e - g by omega] at happend
    rw [← happend, show e - p = e - (p + 1) + 1 by omega, List.range'_succ]
  have hbefore : (List.range' g (p - g)).filter f = [] := List.filter_eq_nil_iff.mpr fun q hq => by
    rw [List.mem_range'_1] at hq
    simp [hfirst q hq.1 (by omega)]
  rw [positions, hsplit, List.filter_append, hbefore, List.nil_append, List.filter_cons_of_pos hp]
  rfl

theorem positions_of_none (h : nextPosition f g e = none) : positions f g e = [] := by
  refine List.filter_eq_nil_iff.mpr fun q hq => ?_
  rw [List.mem_range'_1] at hq
  simp [nextPosition_eq_none_iff.mp h q hq.1 (by omega)]

theorem mem_positions : p ∈ positions f g e ↔ g ≤ p ∧ p < e ∧ f p = true := by
  rw [positions, List.mem_filter, List.mem_range'_1]
  exact ⟨fun h => ⟨h.1.1, by omega, h.2⟩, fun h => ⟨⟨h.1, by omega⟩, h.2.2⟩⟩

theorem positions_self (f : ℕ → Bool) (g : ℕ) : positions f g g = [] := by
  rw [positions, Nat.sub_self]
  rfl

theorem positions_succ (h : g ≤ e) : positions f g (e + 1) = positions f g e ++ if f e then [e]
    else [] := by
  rw [positions, Nat.succ_sub h, List.range'_1_concat, List.filter_append, show g + (e - g) =
    e by omega, List.filter_cons, List.filter_nil]
  rfl

theorem length_positions_le (f : ℕ → Bool) (g e : ℕ) : (positions f g e).length ≤ e - g :=
  Nat.le_trans (List.length_filter_le _ _) (Nat.le_of_eq List.length_range')

theorem pairwise_positions (f : ℕ → Bool) (g e : ℕ) : (positions f g e).Pairwise (· < ·) :=
  List.Pairwise.filter f List.pairwise_lt_range'

theorem positions_append (hg : g ≤ m) (he : m ≤ e) :
    positions f g e = positions f g m ++ positions f m e := by
  have happend := List.range'_append_1 (s := g) (m := m - g) (n := e - m)
  rw [show g + (m - g) = m by omega, show m - g + (e - m) = e - g by omega] at happend
  rw [positions, ← happend, List.filter_append]
  rfl

end
