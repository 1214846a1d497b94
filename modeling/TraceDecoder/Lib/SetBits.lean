import Mathlib.Data.List.Basic
import Mathlib.Logic.Function.Basic
import Mathlib.Tactic.Common

/-!
# Loops over the bits of a word

The list of the set bits from an index on, the search for the next one, and the loop that shifts a
mask until nothing is left of it. Where the most significant 1 of a word ends it, the bits below are
read from the top down by an index, or from the bottom up by shifts.
-/

namespace SetBits

variable {w : ℕ} {α σ : Type}

/-- The set bits from index `i` on, in ascending order. -/
def bitsFrom (mask : BitVec w) (i : ℕ) : List ℕ := (List.range' i (w - i)).filter (mask.getLsbD ·)

theorem bitsFrom_of_lt (mask : BitVec w) {i : ℕ} (hi : i < w) :
    bitsFrom mask i = if mask.getLsbD i = true then i :: bitsFrom mask (i + 1) else bitsFrom mask
      (i + 1) := by
  have hlen : w - i = w - (i + 1) + 1 := by omega
  rw [bitsFrom, hlen, List.range'_succ, List.filter_cons]
  rfl

theorem bitsFrom_of_le (mask : BitVec w) {i : ℕ} (hi : w ≤ i) : bitsFrom mask i = [] := by
  rw [bitsFrom, Nat.sub_eq_zero_of_le hi, List.range'_zero, List.filter_nil]

theorem mem_bitsFrom {mask : BitVec w} {i j : ℕ} :
    j ∈ bitsFrom mask i ↔ i ≤ j ∧ mask.getLsbD j = true := by
  rw [bitsFrom, List.mem_filter, List.mem_range'_1]
  constructor
  · rintro ⟨⟨hle, -⟩, hj⟩
    exact ⟨hle, hj⟩
  · rintro ⟨hle, hj⟩
    have hlt : j < w := BitVec.lt_of_getLsbD hj
    exact ⟨⟨hle, by omega⟩, hj⟩

theorem nodup_bitsFrom (mask : BitVec w) (i : ℕ) : (bitsFrom mask i).Nodup :=
  (List.nodup_range' ..).filter _

/-- What stands behind an index in the list are the set bits from the next index on. -/
theorem bitsFrom_tail {mask : BitVec w} {i j : ℕ} {js : List ℕ} (h : bitsFrom mask i = j :: js) :
    js = bitsFrom mask (j + 1) := by
  induction hn : w - i generalizing i with
  | zero => rw [bitsFrom_of_le mask (by omega)] at h; cases h
  | succ n ih =>
    rw [bitsFrom_of_lt mask (by omega)] at h
    split_ifs at h with hbit
    · obtain ⟨rfl, rfl⟩ := List.cons.inj h
      rfl
    · exact ih h (by omega)

/-- The list from an index on is the list from its first set bit on. -/
theorem bitsFrom_headD (mask : BitVec w) (i : ℕ) :
    bitsFrom mask ((bitsFrom mask i).headD w) = bitsFrom mask i := by
  cases his : bitsFrom mask i with
  | nil => exact bitsFrom_of_le mask (Nat.le_refl w)
  | cons j js =>
    have hbit : mask.getLsbD j = true := (mem_bitsFrom.mp (his ▸ List.mem_cons_self)).2
    rw [List.headD_cons, bitsFrom_of_lt mask (BitVec.lt_of_getLsbD hbit), if_pos hbit,
      bitsFrom_tail his]

theorem bitsFrom_eq_nil {mask : BitVec w} : bitsFrom mask 0 = [] ↔ mask = 0#w := by
  constructor
  · intro h
    refine BitVec.eq_of_getLsbD_eq fun i _ => ?_
    have hmem : i ∉ bitsFrom mask 0 := by rw [h]; exact List.not_mem_nil
    rw [mem_bitsFrom, not_and] at hmem
    rw [BitVec.getLsbD_zero]
    exact Bool.eq_false_iff.mpr (hmem (Nat.zero_le i))
  · rintro rfl
    refine List.eq_nil_iff_forall_not_mem.mpr fun i hi => ?_
    rw [mem_bitsFrom, BitVec.getLsbD_zero] at hi
    exact absurd hi.2 (by decide)

/-- The search upwards from an index over `n` bits. -/
def seek (mask : BitVec w) : ℕ → ℕ → ℕ
  | 0, i => i
  | n + 1, i => if mask.getLsbD i = true then i else seek mask n (i + 1)

theorem seek_eq (mask : BitVec w) {i : ℕ} (hi : i ≤ w) :
    seek mask (w - i) i = (bitsFrom mask i).headD w := by
  induction hn : w - i generalizing i with
  | zero =>
    rw [bitsFrom_of_le mask (by omega), seek, List.headD_nil]
    omega
  | succ n ih =>
    rw [bitsFrom_of_lt mask (by omega), seek]
    split_ifs
    · rw [List.headD_cons]
    · exact ih (by omega) (by omega)

/-- The loop `while (mask != 0) { if (mask & 1) body(i); mask >>= 1; i += 1; }` with its output and
its state. -/
def forBits (body : ℕ → σ → List α × σ) : ℕ → BitVec w → ℕ → σ → List α × σ
  | 0, _, _, s => ([], s)
  | n + 1, mask, i, s =>
    if mask = 0 then ([], s)
    else if mask.getLsbD 0 = true then
      let (xs, s) := body i s
      let (ys, s) := forBits body n (mask >>> 1) (i + 1) s
      (xs ++ ys, s)
    else forBits body n (mask >>> 1) (i + 1) s

def forList (body : ℕ → σ → List α × σ) : List ℕ → σ → List α × σ
  | [], s => ([], s)
  | i :: is, s =>
    let (xs, s) := body i s
    let (ys, s) := forList body is s
    (xs ++ ys, s)

theorem forBits_eq (body : ℕ → σ → List α × σ) (mask : BitVec w) (i : ℕ) (s : σ) :
    forBits body (w - i) (mask >>> i) i s = forList body (bitsFrom mask i) s := by
  induction hn : w - i generalizing i s with
  | zero => rw [bitsFrom_of_le mask (by omega)]; rfl
  | succ n ih =>
    have hshift : mask >>> i >>> 1 = mask >>> (i + 1) := (BitVec.shiftRight_add mask i 1).symm
    have hbit : (mask >>> i).getLsbD 0 = mask.getLsbD i := by
      rw [BitVec.getLsbD_ushiftRight, Nat.add_zero]
    have hnext := fun s => ih (i + 1) s (by omega)
    rw [forBits, hshift, hbit]
    by_cases hzero : mask >>> i = 0
    · have hnone : bitsFrom mask i = [] := by
        refine List.eq_nil_iff_forall_not_mem.mpr fun j hj => ?_
        obtain ⟨hle, hj⟩ := mem_bitsFrom.mp hj
        have hj' : (mask >>> i).getLsbD (j - i) = true := by
          rw [BitVec.getLsbD_ushiftRight, Nat.add_sub_cancel' hle]
          exact hj
        rw [hzero] at hj'
        exact absurd (hj'.symm.trans BitVec.getLsbD_zero) (by decide)
      rw [if_pos hzero, hnone]
      rfl
    · rw [if_neg hzero, bitsFrom_of_lt mask (by omega)]
      split_ifs
      · rw [forList]
        simp only [hnext]
      · exact hnext s

theorem forBits_zero (body : ℕ → σ → List α × σ) (mask : BitVec w) (s : σ) :
    forBits body w mask 0 s = forList body (bitsFrom mask 0) s := by
  have h := forBits_eq body mask 0 s
  rwa [Nat.sub_zero, BitVec.ushiftRight_zero] at h

theorem forList_const (out : ℕ → List α) (is : List ℕ) (s : σ) :
    forList (fun i s => (out i, s)) is s = (is.flatMap out, s) := by
  induction is with
  | nil => rfl
  | cons i is ih => simp only [forList, ih, List.flatMap_cons]

/-- Where the body at an index depends on and changes what is kept for this index only. -/
theorem forList_update {β : Type} (out : ℕ → β → List α) (next : ℕ → β → β) {is : List ℕ}
    (his : is.Nodup) (s : ℕ → β) :
    forList (fun i s => (out i (s i), Function.update s i (next i (s i)))) is s =
      (is.flatMap fun i => out i (s i), fun i => if i ∈ is then next i (s i) else s i) := by
  induction is generalizing s with
  | nil => rfl
  | cons i is ih =>
    obtain ⟨hi, his⟩ := List.nodup_cons.mp his
    have hother : ∀ j, j ≠ i → Function.update s i (next i (s i)) j = s j :=
      fun j hj => Function.update_of_ne hj _ _
    simp only [forList, ih his]
    refine Prod.ext ?_ (funext fun j => ?_)
    · have hsame : is.flatMap (fun j => out j (Function.update s i (next i (s i)) j)) = is.flatMap
          fun j => out j (s j) :=
        List.flatMap_congr fun j hj => by rw [hother j fun h => hi (h ▸ hj)]
      rw [List.flatMap_cons, ← hsame]
    · by_cases hj : j = i
      · subst hj
        simp only [hi, List.mem_cons_self, if_true, if_false, Function.update_self]
      · simp only [List.mem_cons, hj, false_or, hother j hj]

end SetBits

namespace StopBit

variable {w : ℕ} (h : BitVec w)

def place : ℕ := h.toNat.log2

def below : List Bool := (List.range (place h)).reverse.map h.getLsbD

@[simp] theorem length_below : (below h).length = place h := by
  rw [below, List.length_map, List.length_reverse, List.length_range]

variable {h}

theorem toNat_ne_zero (hne : h ≠ 0#w) : h.toNat ≠ 0 := fun hzero =>
  hne (BitVec.eq_of_toNat_eq (by rw [hzero, BitVec.toNat_ofNat, Nat.zero_mod]))

theorem place_lt (hne : h ≠ 0#w) : place h < w := (Nat.log2_lt (toNat_ne_zero hne)).mpr h.isLt

theorem place_lt_width (hw : 0 < w) : place h < w := by
  by_cases hzero : h = 0#w
  · subst hzero
    rw [place, BitVec.toNat_ofNat, Nat.zero_mod, Nat.log2_zero]
    exact hw
  · exact place_lt hzero

theorem getLsbD_place (hne : h ≠ 0#w) : h.getLsbD (place h) = true := by
  obtain ⟨hle, hlt⟩ := (Nat.log2_eq_iff (toNat_ne_zero hne)).mp rfl
  have hdiv : h.toNat / 2 ^ place h = 1 := by
    rw [Nat.div_eq_iff (Nat.two_pow_pos _), place]
    rw [Nat.pow_succ] at hlt
    omega
  rw [BitVec.getLsbD, Nat.testBit_eq_decide_div_mod_eq, hdiv]
  rfl

theorem getLsbD_of_place_lt {i : ℕ} (hi : place h < i) : h.getLsbD i = false := by
  have hlt : h.toNat < 2 ^ i :=
    Nat.lt_of_lt_of_le Nat.lt_log2_self (Nat.pow_le_pow_right (by decide) hi)
  exact Nat.testBit_lt_two_pow hlt

theorem below_eq_nil (hle : h.toNat ≤ 1) : below h = [] := by
  have hplace : place h = 0 := by
    rw [place, Nat.log2_def, if_neg (by omega)]
  rw [below, hplace]
  rfl

/-- The last of the bits is the one that a shift takes away. -/
theorem below_shift (hlt : 1 < h.toNat) : below h = below (h >>> 1) ++ [h.getLsbD 0] := by
  have hplace : place h = place (h >>> 1) + 1 := by
    rw [place, place, Nat.log2_def, if_pos (by omega), BitVec.toNat_ushiftRight,
      Nat.shiftRight_eq_div_pow, Nat.pow_one]
  have hbits : ∀ i, (h >>> 1).getLsbD i = h.getLsbD (i + 1) := by
    intro i
    rw [BitVec.getLsbD_ushiftRight, Nat.add_comm]
  have hlast : List.range (place (h >>> 1) + 1) = 0 :: (List.range (place (h >>> 1))).map (· + 1) :=
    List.range_succ_eq_map
  rw [below, below, hplace, hlast, List.reverse_cons, List.map_append, List.map_singleton,
    ← List.map_reverse, List.map_map]
  congr 1
  exact List.map_congr_left fun i _ => (hbits i).symm

end StopBit
