import Mathlib.Tactic.Common
import Mathlib.Data.Nat.Bitwise

/-!
# Streams of bits

A stream is a function from positions to bits. `Window` says that a word holds a stretch of the
stream, `chunk` cuts the stream into words of one size, and `ofFields` lays numbers of given widths
end to end, least significant bit first.
-/

namespace BitStream

variable {n : ℕ} {bit : ℕ → Bool}

/-- `v` holds the `width` bits that start at `start`, as far as they fit. -/
def Window (bit : ℕ → Bool) (start width : ℕ) (v : BitVec n) : Prop :=
  ∀ j < n, v.getLsbD j = (decide (j < width) && bit (start + j))

theorem Window.append {start w w' : ℕ} {v v' : BitVec n} (h : Window bit start w v)
    (h' : Window bit (start + w) w' v') : Window bit start (w + w') (v ||| v' <<< w) := by
  intro j hj
  rw [BitVec.getLsbD_or, BitVec.getLsbD_shiftLeft, h j hj]
  by_cases hw : j < w
  · simp only [hw, decide_true, Bool.not_true, Bool.and_false, Bool.false_and, Bool.or_false,
      Bool.true_and, Nat.lt_add_right w' hw]
  · have hsub : j - w < n := by omega
    have hpos : start + w + (j - w) = start + j := by omega
    have hdec : decide (j - w < w') = decide (j < w + w') := decide_eq_decide.mpr (by omega)
    simp only [hw, hj, decide_false, decide_true, Bool.not_false, Bool.false_and, Bool.false_or,
      Bool.true_and, h' _ hsub, hpos, hdec]

/-- A window gives the number the stream carries if the number fits in the word it is read into. -/
theorem Window.toNat_eq_of_lt {start width value : ℕ} {v : BitVec n} (h : Window bit start width v)
    (hn : value < 2 ^ n) (hvalue : value < 2 ^ width)
    (hbit : ∀ j < width, bit (start + j) = value.testBit j) : v.toNat = value := by
  apply Nat.eq_of_testBit_eq
  intro j
  rw [BitVec.testBit_toNat]
  by_cases hjn : j < n
  · rw [h j hjn]
    by_cases hj : j < width
    · simp only [hj, hbit j hj, decide_true, Bool.true_and]
    · rw [Nat.testBit_lt_two_pow
        (hvalue.trans_le (Nat.pow_le_pow_right (by decide) (Nat.not_lt.mp hj)))]
      simp only [hj, decide_false, Bool.false_and]
  · rw [BitVec.getLsbD_of_ge v j (Nat.not_lt.mp hjn),
      Nat.testBit_lt_two_pow (hn.trans_le (Nat.pow_le_pow_right (by decide) (Nat.not_lt.mp hjn)))]

theorem Window.toNat_eq {start width value : ℕ} {v : BitVec n} (h : Window bit start width v)
    (hn : width ≤ n) (hvalue : value < 2 ^ width)
    (hbit : ∀ j < width, bit (start + j) = value.testBit j) : v.toNat = value :=
  h.toNat_eq_of_lt (hvalue.trans_le (Nat.pow_le_pow_right (by decide) hn)) hvalue hbit

/-- Word number `i` of the stream cut into words of `n` bits. -/
def chunk (n : ℕ) (bit : ℕ → Bool) (i : ℕ) : BitVec n :=
  BitVec.ofNat n (Nat.ofBits fun j : Fin n => bit (n * i + j))

theorem getLsbD_chunk {i j : ℕ} (hj : j < n) : (chunk n bit i).getLsbD j = bit (n * i + j) := by
  simp only [chunk, BitVec.getLsbD_ofNat, hj, decide_true, Bool.true_and, Nat.testBit_ofBits_lt _ j
    hj]

theorem getLsbD_chunk_div (hn : 0 < n) (k : ℕ) : (chunk n bit (k / n)).getLsbD (k % n) = bit k := by
  rw [getLsbD_chunk (Nat.mod_lt k hn), Nat.div_add_mod]

/-- The stream that carries the given (width, value) pairs one after the other. -/
def ofFields : List (ℕ × ℕ) → ℕ → Bool
  | [], _ => false
  | (w, v) :: fs, k => if k < w then v.testBit k else ofFields fs (k - w)

theorem ofFields_head {w v : ℕ} {fs : List (ℕ × ℕ)} {k : ℕ} (hk : k < w) :
    ofFields ((w, v) :: fs) k = v.testBit k := by
  rw [ofFields, if_pos hk]

theorem ofFields_tail (w v : ℕ) (fs : List (ℕ × ℕ)) (k : ℕ) :
    ofFields ((w, v) :: fs) (w + k) = ofFields fs k := by
  rw [ofFields, if_neg (by omega), Nat.add_sub_cancel_left]

end BitStream
