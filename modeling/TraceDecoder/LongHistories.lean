import TraceDecoder.History
import TraceDecoder.Lib.SetBits

/-!
# Histories of more than 31 branches

The stop bit and the index agree for every history word, so that the number of outcomes is always
right. The mask is an `int`: bit 31 of it is its sign, and the bits from 32 on are those from 0 on
again.
-/

namespace TraceDecoder.Count

open StopBit

/-- The results of `n` calls of `consumeHistory`, `none` for the return code 1. -/
def consumeHistories : ℕ → Count → List (Option Bool) × Count
  | 0, c => ([], c)
  | n + 1, c =>
    match c.consumeHistory with
    | some (taken, c') => (some taken :: (consumeHistories n c').1, (consumeHistories n c').2)
    | none => (none :: (consumeHistories n c).1, (consumeHistories n c).2)

/-- The calls deliver the outcomes one by one. From then on they fail and change nothing. -/
def Delivers (c : Count) (outcomes : List Bool) : Prop :=
  ∀ n, (c.consumeHistories n).1 = (outcomes.map some ++ List.replicate n none).take n ∧
    (outcomes.length ≤ n → (c.consumeHistories n).2 = (c.consumeHistories outcomes.length).2)

/-- The outcome that is read off a history for index `i`. -/
def testedBit (history : BitVec 64) (i : ℕ) : Bool := history &&& (intBit i).signExtend 64 ≠ 0

variable {c : Count} {h : BitVec 64}

theorem isTaken_eq_testedBit {i : ℕ} (hbit : c.histBit = i) :
    c.isTaken = testedBit c.history i := by
  rw [isTaken, hbit]
  rfl

/-! ### The index -/

theorem belowStopBit_eq_place (h : BitVec 64) : belowStopBit h 64 = (place h : ℤ) - 1 := by
  by_cases hzero : h = 0
  · subst hzero
    decide
  · exact belowStopBit_eq (getLsbD_place hzero) (fun i hi _ => getLsbD_of_place_lt hi)
      (place_lt hzero)

theorem setHistory_eq (hpending : c.pending = false) (h : BitVec 64) :
    c.setHistory h = (.ok, { c with history := h, histBit := (place h : ℤ) - 1 }) := by
  rw [setHistory, hpending, belowStopBit_eq_place]
  rfl

/-- A run of calls reads the bits below the index and stays behind the last of them. -/
theorem consumeHistories_eq (n k : ℕ) (hbit : c.histBit = (k : ℤ) - 1) :
    c.consumeHistories n =
      (((List.range k).reverse.map (fun i => some (testedBit c.history i)) ++ List.replicate n
        none).take n,
        { c with histBit := ((k - n : ℕ) : ℤ) - 1 }) := by
  induction n generalizing c k with
  | zero =>
    rw [consumeHistories, List.take_zero, Nat.sub_zero, ← hbit]
  | succ n ih =>
    rw [consumeHistories]
    cases k with
    | zero =>
      have hnone : c.consumeHistory = none := if_pos (by omega)
      rw [hnone]
      simp only [ih 0 hbit, Nat.zero_sub, List.range_zero, List.reverse_nil, List.map_nil,
        List.nil_append, List.take_replicate, Nat.min_self]
      rfl
    | succ k =>
      have hindex : c.histBit = k := by omega
      have hsome : c.consumeHistory =
          some (testedBit c.history k, { c with histBit := c.histBit - 1 }) := by
        rw [consumeHistory, if_neg (by omega), isTaken_eq_testedBit hindex]
      have hrest := ih (c := { c with histBit := c.histBit - 1 }) k (by rw [hindex])
      rw [hsome]
      simp only [hrest, List.range_succ, List.reverse_append, List.reverse_singleton,
        List.cons_append, List.nil_append, List.map_cons, List.take_succ_cons,
          Nat.add_sub_add_right]
      have hlength (xs : List (Option Bool)) : n ≤ (xs ++ List.replicate n none).length := by
        rw [List.length_append, List.length_replicate]
        exact Nat.le_add_left _ _
      rw [List.replicate_succ', ← List.append_assoc, List.take_append_of_le_length (hlength _)]

/-- The outcomes are those of the list exactly if each bit is tested as it is. -/
theorem delivers_iff (hbit : c.histBit = (place c.history : ℤ) - 1) :
    c.Delivers (below c.history) ↔ ∀ i < place c.history, testedBit c.history i =
      c.history.getLsbD i := by
  have hrun := fun n => consumeHistories_eq n (place c.history) hbit
  constructor
  · intro hall i hi
    have hlists := (hall (place c.history)).1
    rw [hrun, List.take_left' (by rw [List.length_map, List.length_reverse, List.length_range]),
      List.take_left' (by rw [List.length_map, length_below]), below, List.map_map] at hlists
    have heq := List.map_inj_left.mp hlists i (List.mem_reverse.mpr (List.mem_range.mpr hi))
    exact Option.some.inj heq
  · intro htested n
    have hlists : (List.range (place c.history)).reverse.map
        (fun i => some (testedBit c.history i)) = (below c.history).map some := by
      rw [below, List.map_map]
      apply List.map_congr_left
      intro i hi
      rw [htested i (List.mem_range.mp (List.mem_reverse.mp hi))]
      rfl
    refine ⟨by rw [hrun, hlists], fun hn => ?_⟩
    rw [length_below] at hn ⊢
    rw [hrun, hrun, Nat.sub_eq_zero_of_le hn, Nat.sub_self]

/-! ### The mask -/

/-- Bit 31 of the mask is its sign, which extends over the stop bit. From bit 32 on the mask is that
of 32 bits below. -/
theorem testedBit_eq {i : ℕ} (hi : i < place h) :
    testedBit h i = if i < 31 then h.getLsbD i else if i = 31 then true else h.getLsbD
      (i - 32) := by
  have hne : h ≠ 0#64 := by
    rintro rfl
    exact Nat.not_lt_zero i hi
  have h64 : place h < 64 := place_lt hne
  have htested := isTaken_eq_testedBit (c := { init with history := h, histBit := i }) rfl
  rw [← htested]
  split_ifs with hlow hsign
  · exact isTaken_eq rfl hlow
  · subst hsign
    have hmask : ((intBit 31).signExtend 64).getLsbD (place h) = true := by
      have hall : ∀ j < 64, 31 ≤ j → ((intBit 31).signExtend 64).getLsbD j = true := by decide
      exact hall (place h) h64 (by omega)
    have hbit : (h &&& (intBit 31).signExtend 64).getLsbD (place h) = true := by
      rw [BitVec.getLsbD_and, getLsbD_place hne, hmask]
      rfl
    rw [htested, testedBit, decide_eq_true_iff]
    intro hzero
    rw [hzero] at hbit
    exact absurd hbit (by simp)
  · have hmask : ∀ j < 63, 32 ≤ j → (intBit j).signExtend 64 = BitVec.twoPow 64 (j - 32) := by
      decide
    exact isTaken_of_mask rfl (by omega) (hmask i (by omega) (by omega))

/-- **Long histories.** The outcomes that are delivered are the bits below the stop bit if and only
if there are at most 31 of them, or bit 31 is 1 and each of the higher ones is like the one 32
places below. -/
theorem setHistory_delivers_iff (c : Count) (hpending : c.pending = false) (h : BitVec 64) :
    (c.setHistory h).1 = .ok ∧
      ((c.setHistory h).2.Delivers (below h) ↔
        (31 < place h → h.getLsbD 31 = true ∧ ∀ i, i + 32 < place h → h.getLsbD (i + 32) =
          h.getLsbD i)) := by
  rw [setHistory_eq hpending]
  refine ⟨rfl, ?_⟩
  have hdelivers := delivers_iff (c := { c with history := h, histBit := (place h : ℤ) - 1 }) rfl
  dsimp only at hdelivers ⊢
  rw [hdelivers]
  constructor
  · intro htested hlong
    constructor
    · have hsign := htested 31 hlong
      rw [testedBit_eq hlong] at hsign
      exact hsign.symm
    · intro i hi
      have hhigh := htested (i + 32) hi
      rw [testedBit_eq hi, if_neg (by omega), if_neg (by omega), Nat.add_sub_cancel] at hhigh
      exact hhigh.symm
  · intro hlong i hi
    rw [testedBit_eq hi]
    split_ifs with hlow hsign
    · rfl
    · subst hsign
      exact (hlong hi).1.symm
    · have hhigh := (hlong (by omega)).2 (i - 32) (by omega)
      rw [Nat.sub_add_cancel (by omega)] at hhigh
      exact hhigh.symm

/-- Three branches: taken, not taken, taken. -/
theorem setHistory_delivers_three : (init.setHistory 0b1101).2.Delivers [true, false, true] :=
  (setHistory_delivers_iff init rfl 0b1101).2.mpr fun hlong => absurd hlong (by decide)

/-- The first of 32 branches that are not taken is reported as taken. -/
theorem not_delivers_long : ¬ ∀ (c : Count) (h : BitVec 64), 1 < h.toNat → c.pending = false →
    (c.setHistory h).2.Delivers (below h) := by
  intro hall
  have hfirst := (hall init 0x100000000 (by decide) rfl 1).1
  exact absurd hfirst (by decide)

end TraceDecoder.Count
