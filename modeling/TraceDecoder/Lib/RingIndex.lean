import Mathlib.Tactic.Common

/-!
# Indices into a ring

A ring of `size` cells with an index `i` at which it is written and an index `o` at which it is
read. The ring is empty if the two are the same, so it holds at most `size - 1` cells.
-/

namespace RingIndex

variable {size i o j k : ℕ}

/-- The index `k` cells behind `i`. -/
def shift (size i k : ℕ) : ℕ := (i + k) % size

/-- The number of cells from `o` to `i`. -/
def distance (size o i : ℕ) : ℕ := if o ≤ i then i - o else i + size - o

/-- Cell `j` is between the index at which the ring is read and the one at which it is written. -/
def Unread (size o i j : ℕ) : Prop := j < size ∧ distance size o j < distance size o i

theorem shift_eq (hi : i < size) (hk : k ≤ size) :
    shift size i k = if i + k < size then i + k else i + k - size := by
  rw [shift]
  split_ifs with h
  · exact Nat.mod_eq_of_lt h
  · rw [Nat.mod_eq_sub_mod (Nat.not_lt.mp h), Nat.mod_eq_of_lt (by omega)]

theorem shift_lt (hsize : 0 < size) : shift size i k < size := Nat.mod_lt _ hsize

theorem shift_zero (hi : i < size) : shift size i 0 = i := Nat.mod_eq_of_lt hi

theorem shift_shift (i j k : ℕ) : shift size (shift size i j) k = shift size i (j + k) := by
  rw [shift, shift, shift, Nat.mod_add_mod, Nat.add_assoc]

theorem shift_inj (hi : i < size) (hj : j < size) (hk : k < size)
    (h : shift size i j = shift size i k) : j = k := by
  rw [shift_eq hi (Nat.le_of_lt hj), shift_eq hi (Nat.le_of_lt hk)] at h
  split_ifs at h <;> omega

theorem distance_lt (hi : i < size) (ho : o < size) : distance size o i < size := by
  rw [distance]
  split_ifs <;> omega

/-- The cells up to the read index are all those that are not unread. -/
theorem shift_distance (hi : i < size) (ho : o < size) :
    shift size i (size - distance size o i) = o := by
  have hlt := distance_lt hi ho
  rw [shift_eq hi (Nat.sub_le _ _)]
  rw [distance] at hlt ⊢
  split_ifs at hlt ⊢ <;> omega

/-- Two cells at the same distance from a third are the same. -/
theorem distance_left_inj (ho : o < size) (hj : j < size)
    (h : distance size o i = distance size j i) : o = j := by
  rw [distance, distance] at h
  split_ifs at h <;> omega

theorem shift_ne (hi : i < size) (ho : o < size) (hk : 0 < k)
    (hroom : distance size o i + k < size) :
    shift size i k ≠ o := by
  have hlt := distance_lt hi ho
  rw [shift_eq hi (by omega)]
  rw [distance] at hroom hlt
  split_ifs at hroom hlt ⊢ <;> omega

theorem distance_shift (hi : i < size) (ho : o < size) (hroom : distance size o i + k < size) :
    distance size o (shift size i k) = distance size o i + k := by
  rw [shift_eq hi (by omega)]
  rw [distance] at hroom ⊢
  rw [distance]
  split_ifs at hroom ⊢ <;> omega

/-- Writing up to the room there is meets no unread cell. -/
theorem not_unread_shift (hi : i < size) (ho : o < size) (hroom : distance size o i + k < size) :
    ¬ Unread size o i (shift size i k) := by
  rintro ⟨-, hlt⟩
  rw [distance_shift hi ho hroom] at hlt
  omega

/-! ### The cells of a ring -/

section

variable {α : Type} (buf : ℕ → α)

/-- The unread cells, from `o` to `i`. -/
def cells (size o i : ℕ) : List α :=
  (List.range (distance size o i)).map fun k => buf (shift size o k)

/-- Writes values one behind the other, from index `j` on. -/
def store (j : ℕ) (xs : List α) : ℕ → α := fun k => if k < j then buf k else xs.getD (k - j) (buf k)

theorem cells_self (size o : ℕ) : cells buf size o o = [] := by
  have hdistance : distance size o o = 0 := by
    rw [distance, if_pos (Nat.le_refl o), Nat.sub_self]
  rw [cells, hdistance]
  rfl

theorem cells_cons (ho : o < size) (hi : i < size) (hne : o ≠ i) :
    cells buf size o i = buf o :: cells buf size (shift size o 1) i := by
  have hdistance : distance size o i = distance size (shift size o 1) i + 1 := by
    rw [shift_eq ho (by omega), distance, distance]
    split_ifs <;> omega
  rw [cells, hdistance, List.range_succ_eq_map, List.map_cons, shift_zero ho, List.map_map]
  refine congrArg (buf o :: ·) (List.map_congr_left fun k _ => ?_)
  change buf (shift size o (k + 1)) = _
  rw [shift_shift, Nat.add_comm]

theorem length_cells (size o i : ℕ) : (cells buf size o i).length = distance size o i := by
  rw [cells, List.length_map, List.length_range]

theorem getElem_cells (hk : k < (cells buf size o i).length) : (cells buf size o i)[k] = buf
    (shift size o k) := by
  simp only [cells, List.getElem_map, List.getElem_range]

theorem cells_update (hi : i < size) (ho : o < size) (hk : k < distance size o i) (x : α) :
    cells (Function.update buf (shift size o k) x) size o i = (cells buf size o i).set k x := by
  have hlt := distance_lt hi ho
  apply List.ext_getElem
  · rw [List.length_set, length_cells, length_cells]
  · intro m hm hm'
    rw [length_cells] at hm
    rw [getElem_cells, List.getElem_set]
    split_ifs with heq
    · rw [heq, Function.update_self]
    · have hne : shift size o m ≠ shift size o k :=
        fun h => heq (shift_inj ho (by omega) (by omega) h).symm
      rw [Function.update_of_ne hne, getElem_cells]

theorem cells_push (hi : i < size) (ho : o < size) (hroom : distance size o i + 1 < size) (x : α) :
    cells (Function.update buf i x) size o (shift size i 1) = cells buf size o i ++ [x] := by
  have hlast : shift size o (distance size o i) = i := by
    have hlt := distance_lt hi ho
    rw [shift_eq ho (Nat.le_of_lt hlt)]
    rw [distance] at hroom hlt ⊢
    split_ifs at hroom hlt ⊢ <;> omega
  rw [cells, distance_shift hi ho hroom, List.range_succ, List.map_append, List.map_singleton,
    hlast, Function.update_self]
  refine congrArg (· ++ [x]) (List.map_congr_left fun m hm => ?_)
  have hm := List.mem_range.mp hm
  refine Function.update_of_ne (fun heq => ?_) _ _
  rw [← hlast] at heq
  have hsame := shift_inj ho (by omega) (by omega) heq
  omega

theorem cells_take (hi : i < size) (ho : o < size) (hk : k ≤ distance size o i) :
    cells buf size o (shift size o k) = (cells buf size o i).take k := by
  have hlt := distance_lt hi ho
  have hdistance : distance size o (shift size o k) = k := by
    rw [shift_eq ho (by omega), distance]
    split_ifs <;> omega
  rw [cells, hdistance, cells, ← List.map_take, List.take_range, Nat.min_eq_left hk]

theorem cells_drop (hi : i < size) (ho : o < size) (hk : k ≤ distance size o i) :
    cells buf size (shift size o k) i = (cells buf size o i).drop k := by
  have hlt := distance_lt hi ho
  have hdistance : distance size (shift size o k) i = distance size o i - k := by
    rw [shift_eq ho (by omega)]
    rw [distance] at hk hlt
    rw [distance, distance]
    split_ifs at hk hlt ⊢ <;> omega
  apply List.ext_getElem
  · rw [List.length_drop, length_cells, length_cells, hdistance]
  · intro m hm hm'
    rw [getElem_cells, List.getElem_drop, getElem_cells, shift_shift]

theorem store_of_lt {xs : List α} (hj : j ≤ k) (hk : k < j + xs.length) :
    store buf j xs k = xs.get ⟨k - j, by omega⟩ := by
  rw [store, if_neg (by omega), List.getD_eq_getElem?_getD, List.getElem?_eq_getElem (show k - j <
    xs.length by omega)]
  rfl

theorem store_of_le {xs : List α} (hk : k < j ∨ j + xs.length ≤ k) : store buf j xs k = buf k := by
  rw [store]
  split_ifs with h
  · rfl
  · rw [List.getD_eq_getElem?_getD, List.getElem?_eq_none (by omega)]
    rfl

/-- What is written from `i` on, without meeting `o`, comes behind the unread cells. -/
theorem cells_store (ho : o < size) (hi : i < size) {xs : List α} (hend : i + xs.length ≤ size)
    (hroom : distance size o i + xs.length < size) :
    cells (store buf i xs) size o (shift size i xs.length) = cells buf size o i ++ xs := by
  rw [cells, distance_shift hi ho hroom, List.range_add, List.map_append, List.map_map]
  congr 1
  · refine List.map_congr_left fun k hk => store_of_le buf ?_
    have hk := List.mem_range.mp hk
    have hlt := distance_lt hi ho
    rw [shift_eq ho (by omega)]
    rw [distance] at hroom hk
    split_ifs at hroom hk ⊢ <;> omega
  · refine List.ext_getElem (by simp) fun k hk hk' => ?_
    have hat : shift size o (distance size o i + k) = i + k := by
      rw [shift_eq ho (by omega)]
      rw [distance] at hroom ⊢
      split_ifs at hroom ⊢ <;> omega
    rw [List.getElem_map, List.getElem_range]
    change store buf i xs (shift size o (distance size o i + k)) = _
    rw [hat, store_of_lt buf (Nat.le_add_right i k) (by omega)]
    simp

end

end RingIndex
