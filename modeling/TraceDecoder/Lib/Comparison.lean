import Mathlib.Data.List.Pairwise
import Mathlib.Data.Ordering.Basic
import Mathlib.Order.Basic

/-!
# Comparisons that are consistent on a list

What a sorting function needs of its comparison on the elements it sorts, and the sorted list that
there is then.
-/

variable {α : Type*}

/-- `cmp` is a strict weak order on the elements of `l`. -/
structure StrictWeakOn (cmp : α → α → Ordering) (l : List α) : Prop where
  swap : ∀ a ∈ l, ∀ b ∈ l, cmp a b = (cmp b a).swap
  lt_trans : ∀ a ∈ l, ∀ b ∈ l, ∀ c ∈ l, cmp a b = .lt → cmp b c = .lt → cmp a c = .lt
  eq_trans : ∀ a ∈ l, ∀ b ∈ l, ∀ c ∈ l, cmp a b = .eq → cmp b c = .eq → cmp a c = .eq

namespace StrictWeakOn

variable {cmp cmp' : α → α → Ordering} {l : List α} {a b c : α}

theorem of_eqOn [Std.TransCmp cmp'] (heq : ∀ a ∈ l, ∀ b ∈ l, cmp a b = cmp' a b) :
    StrictWeakOn cmp l where
  swap a ha b hb := by
    rw [heq a ha b hb, heq b hb a ha]
    exact Std.OrientedCmp.eq_swap
  lt_trans a ha b hb c hc hab hbc := by
    rw [heq a ha b hb] at hab
    rw [heq b hb c hc] at hbc
    rw [heq a ha c hc]
    exact Std.TransCmp.lt_trans hab hbc
  eq_trans a ha b hb c hc hab hbc := by
    rw [heq a ha b hb] at hab
    rw [heq b hb c hc] at hbc
    rw [heq a ha c hc]
    exact Std.TransCmp.eq_trans hab hbc

theorem isLE_total (h : StrictWeakOn cmp l) (ha : a ∈ l) (hb : b ∈ l) : (cmp a b).isLE ∨
    (cmp b a).isLE := by
  rw [h.swap b hb a ha]
  cases cmp a b <;> decide

theorem isLE_trans (h : StrictWeakOn cmp l) (ha : a ∈ l) (hb : b ∈ l) (hc : c ∈ l)
    (hab : (cmp a b).isLE) (hbc : (cmp b c).isLE) : (cmp a c).isLE := by
  by_contra hac
  have hca : cmp c a = .lt := by
    rw [h.swap c hc a ha]
    cases hcmp : cmp a c with
    | lt => rw [hcmp] at hac; exact absurd rfl hac
    | eq => rw [hcmp] at hac; exact absurd rfl hac
    | gt => rfl
  -- From `c < a` each way to have `a ≤ b ≤ c` leads to two elements that compare twice.
  cases hab' : cmp a b with
  | gt => rw [hab'] at hab; exact absurd hab (by decide)
  | lt =>
    have hcb := h.lt_trans c hc a ha b hb hca hab'
    rw [h.swap b hb c hc, hcb] at hbc
    exact absurd hbc (by decide)
  | eq =>
    cases hbc' : cmp b c with
    | gt => rw [hbc'] at hbc; exact absurd hbc (by decide)
    | lt =>
      have hba := h.lt_trans b hb c hc a ha hbc' hca
      rw [h.swap a ha b hb, hba] at hab'
      cases hab'
    | eq =>
      have hac' := h.eq_trans a ha b hb c hc hab' hbc'
      rw [h.swap a ha c hc, hca] at hac'
      cases hac'

theorem exists_perm_sorted (h : StrictWeakOn cmp l) :
    ∃ l' : List α, l'.Perm l ∧ l'.Pairwise fun a b => (cmp a b).isLE := by
  have hsorted := @List.pairwise_mergeSort { a // a ∈ l } (fun a b => (cmp a b).isLE)
    (fun a b c hab hbc => h.isLE_trans a.2 b.2 c.2 hab hbc)
    (fun a b => by simpa using h.isLE_total a.2 b.2) l.attach
  refine ⟨(l.attach.mergeSort _).map Subtype.val, ?_, List.pairwise_map.mpr hsorted⟩
  have hperm := (List.mergeSort_perm l.attach fun a b => (cmp a b).isLE).map Subtype.val
  rwa [List.attach_map_subtype_val] at hperm

end StrictWeakOn
