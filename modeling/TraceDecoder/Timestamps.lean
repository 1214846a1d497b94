import Mathlib.Order.Monotone.Defs
import TraceDecoder.ProcessTraceMessage

/-!
# Timestamps

A message carries the low bits of the time, as they are or as their difference to those of the
message before. `processTS` carries the high bits over and adds the wraps of the counter.
-/

namespace TraceDecoder

variable {n prev t : ℕ} {last : TIMESTAMP}

/-- The value a message carries for time `t` after a message for time `prev`. -/
def tsField (n prev t : ℕ) : TsType → TIMESTAMP
  | .full => BitVec.ofNat 64 (t % 2 ^ n)
  | .rel => BitVec.ofNat 64 (t % 2 ^ n ^^^ prev % 2 ^ n)

theorem toNat_shl64_one (hn : n < 64) : (shl64 1 n).toNat = 2 ^ n := by
  have hlt : 2 ^ n < 2 ^ 64 := Nat.pow_lt_pow_right (by decide) hn
  rw [shl64, Nat.mod_eq_of_lt hn, BitVec.toNat_shiftLeft, Nat.shiftLeft_eq,
    show (1 : BitVec 64).toNat = 1 from rfl, Nat.one_mul, Nat.mod_eq_of_lt hlt]

theorem highBits (hn : n < 64) (last : TIMESTAMP) :
    (last &&& ~~~(shl64 1 n - 1)).toNat = 2 ^ n * (last.toNat / 2 ^ n) := by
  have hmask : (shl64 1 n - 1).toNat = 2 ^ n - 1 := by
    have hpos := Nat.two_pow_pos n
    have hle : (1 : BitVec 64) ≤ shl64 1 n := by
      rw [BitVec.le_def, toNat_shl64_one hn]
      exact hpos
    rw [BitVec.toNat_sub_of_le hle, toNat_shl64_one hn]
    rfl
  apply Nat.eq_of_testBit_eq
  intro i
  have hlast : 64 ≤ i → last.toNat.testBit i = false :=
    BitVec.testBit_toNat last ▸ last.getLsbD_of_ge i
  rw [BitVec.toNat_and, BitVec.toNat_not, Nat.testBit_and, hmask, Nat.testBit_two_pow_mul,
    Nat.testBit_div_two_pow, show 2 ^ 64 - 1 - (2 ^ n - 1) = 2 ^ 64 - (2 ^ n - 1 + 1) by omega,
    Nat.testBit_two_pow_sub_succ (lt_of_le_of_lt (Nat.sub_le _ _)
      (Nat.pow_lt_pow_right (by decide) hn)),
    Nat.testBit_two_pow_sub_one]
  by_cases hi : n ≤ i
  · have hadd : i - n + n = i := by omega
    by_cases h64 : i < 64
    · simp [hi, hadd, h64, Nat.not_lt.mpr hi]
    · simp [hi, hadd, hlast (by omega)]
  · simp [hi, Nat.not_le.mp hi]

theorem fits (hn : n < 64) (t : ℕ) (last : TIMESTAMP) :
    2 ^ n * (last.toNat / 2 ^ n) + t % 2 ^ n < 2 ^ 64 := by
  have hlow : t % 2 ^ n < 2 ^ n := Nat.mod_lt t (Nat.two_pow_pos n)
  have hdvd : 2 ^ 64 = 2 ^ n * 2 ^ (64 - n) := by rw [← pow_add, Nat.add_sub_cancel' hn.le]
  have hquot : last.toNat / 2 ^ n < 2 ^ (64 - n) := Nat.div_lt_of_lt_mul (hdvd ▸ last.isLt)
  calc 2 ^ n * (last.toNat / 2 ^ n) + t % 2 ^ n
      < 2 ^ n * (last.toNat / 2 ^ n) + 2 ^ n := by omega
    _ = 2 ^ n * (last.toNat / 2 ^ n + 1) := (Nat.mul_add_one _ _).symm
    _ ≤ 2 ^ n * 2 ^ (64 - n) := Nat.mul_le_mul_left _ hquot
    _ = 2 ^ 64 := hdvd.symm

/-- Before the wrap is added, a message gives the high bits of the last
time with its own low bits. -/
theorem processTS_unwrapped (hn : n < 64) (hlast : last ≠ 0)
    (hmod : last.toNat % 2 ^ n = prev % 2 ^ n) (kind : TsType) :
    ∃ ts : TIMESTAMP, ts.toNat = 2 ^ n * (last.toNat / 2 ^ n) + t % 2 ^ n ∧
      processTS n kind last (tsField n prev t kind) = if ts.toNat < last.toNat then ts + shl64 1 n
        else ts := by
  have hlow : t % 2 ^ n < 2 ^ n := Nat.mod_lt t (Nat.two_pow_pos n)
  have hle : 2 ^ n < 2 ^ 64 := Nat.pow_lt_pow_right (by decide) hn
  cases kind with
  | full =>
    refine ⟨tsField n prev t .full + (last &&& ~~~(shl64 1 n - 1)), ?_, rfl⟩
    have hfield : (tsField n prev t .full).toNat = t % 2 ^ n := Nat.mod_eq_of_lt (hlow.trans hle)
    rw [BitVec.toNat_add, hfield, highBits hn, Nat.add_comm, Nat.mod_eq_of_lt (fits hn t last)]
  | rel =>
    refine ⟨last ^^^ tsField n prev t .rel, ?_, ?_⟩
    · have hxor : t % 2 ^ n ^^^ prev % 2 ^ n < 2 ^ n :=
        Nat.xor_lt_two_pow hlow (Nat.mod_lt _ (Nat.two_pow_pos n))
      have hdiv : (last.toNat ^^^ (t % 2 ^ n ^^^ prev % 2 ^ n)) / 2 ^ n = last.toNat / 2 ^ n := by
        rw [Nat.xor_div_two_pow, Nat.div_eq_of_lt hxor, Nat.xor_zero]
      have hrem : (last.toNat ^^^ (t % 2 ^ n ^^^ prev % 2 ^ n)) % 2 ^ n = t % 2 ^ n := by
        rw [Nat.xor_mod_two_pow, hmod, Nat.mod_eq_of_lt hxor, Nat.xor_comm, Nat.xor_assoc,
          Nat.xor_self, Nat.xor_zero]
      have hfield : (tsField n prev t .rel).toNat = t % 2 ^ n ^^^ prev % 2 ^ n :=
        Nat.mod_eq_of_lt (hxor.trans hle)
      rw [BitVec.toNat_xor, hfield, ← Nat.div_add_mod (last.toNat ^^^ _) (2 ^ n), hdiv, hrem]
    · simp only [processTS, hlast, ne_eq, not_false_eq_true, if_true]

theorem processTS_next (hn : n < 64) (hlast : last ≠ 0) (hmod : last.toNat % 2 ^ n = prev % 2 ^ n)
    (hle : prev ≤ t)
    (hstep : t - prev < 2 ^ n) (hbound : last.toNat + (t - prev) < 2 ^ 64) (kind : TsType) :
    (processTS n kind last (tsField n prev t kind)).toNat = last.toNat + (t - prev) := by
  obtain ⟨ts, hts, hprocess⟩ := processTS_unwrapped (t := t) hn hlast hmod kind
  have hprev := Nat.div_add_mod prev (2 ^ n)
  have ht := Nat.div_add_mod t (2 ^ n)
  have hold := Nat.div_add_mod last.toNat (2 ^ n)
  have hquot : t / 2 ^ n ≤ prev / 2 ^ n + 1 := by
    rw [← Nat.add_div_right prev (Nat.two_pow_pos n)]
    exact Nat.div_le_div_right (by omega)
  have hquot' : prev / 2 ^ n ≤ t / 2 ^ n := Nat.div_le_div_right hle
  have hlow : t % 2 ^ n < 2 ^ n := Nat.mod_lt t (Nat.two_pow_pos n)
  have hlow' : prev % 2 ^ n < 2 ^ n := Nat.mod_lt prev (Nat.two_pow_pos n)
  rw [hprocess]
  -- the counter has wrapped if and only if the low bits have become smaller
  obtain hq | hq : t / 2 ^ n = prev / 2 ^ n ∨ t / 2 ^ n = prev / 2 ^ n + 1 := by omega
  · rw [hq] at ht
    rw [if_neg (by omega), hts]
    omega
  · rw [hq, Nat.mul_add_one] at ht
    rw [if_pos (by omega), BitVec.toNat_add, toNat_shl64_one hn, hts, Nat.mod_eq_of_lt (by omega)]
    omega

/-- The times computed for messages of the given kinds and real times, the first with a full
timestamp. -/
def times (n : ℕ) (kind : ℕ → TsType) (t : ℕ → ℕ) : ℕ → TIMESTAMP
  | 0 => processTS n .full 0 (tsField n 0 (t 0) .full)
  | i + 1 => processTS n (kind i) (times n kind t i) (tsField n (t i) (t (i + 1)) (kind i))

variable {t : ℕ → ℕ}

theorem times_zero (hn : n < 64) (kind : ℕ → TsType) : (times n kind t 0).toNat = t 0 % 2 ^ n := by
  have hlow : t 0 % 2 ^ n < 2 ^ n := Nat.mod_lt _ (Nat.two_pow_pos n)
  have hle : 2 ^ n < 2 ^ 64 := Nat.pow_lt_pow_right (by decide) hn
  have hzero : (times n kind t 0) = tsField n 0 (t 0) .full := by
    simp [times, processTS]
  rw [hzero, tsField, BitVec.toNat_ofNat, Nat.mod_eq_of_lt (hlow.trans hle)]

theorem times_eq (hn : n < 64) (hmono : Monotone t) (hstep : ∀ i, t (i + 1) - t i < 2 ^ n)
    (hstart : t 0 % 2 ^ n ≠ 0)
    (kind : ℕ → TsType) (i : ℕ) (hbound : t 0 % 2 ^ n + (t i - t 0) < 2 ^ 64) :
    (times n kind t i).toNat = t 0 % 2 ^ n + (t i - t 0) := by
  induction i with
  | zero => rw [times_zero hn, Nat.sub_self, Nat.add_zero]
  | succ i ih =>
    have hle : t i ≤ t (i + 1) := hmono (Nat.le_succ i)
    have hle' : t 0 ≤ t i := hmono (Nat.zero_le i)
    have hlast := ih (by omega)
    have hne : times n kind t i ≠ 0 := by
      rintro h
      rw [h] at hlast
      exact hstart (by have : (0 : TIMESTAMP).toNat = 0 := rfl; omega)
    have hmod : (times n kind t i).toNat % 2 ^ n = t i % 2 ^ n := by
      rw [hlast, Nat.mod_add_mod, Nat.add_sub_cancel' hle']
    rw [times, processTS_next hn hne hmod hle (hstep i) (by omega), hlast]
    omega

/-- **Timestamps** of a core rebuild the time that passes: the computed times never
decrease and differ as the real times do, however the kinds of timestamps are mixed and
whenever the counter wraps. -/
theorem times_follow (hn : n < 64) (hmono : Monotone t) (hstep : ∀ i, t (i + 1) - t i < 2 ^ n)
    (hstart : t 0 % 2 ^ n ≠ 0) (kind : ℕ → TsType) (i : ℕ)
    (hbound : (times n kind t 0).toNat + (t i - t 0) < 2 ^ 64) :
    (times n kind t i).toNat - (times n kind t 0).toNat = t i - t 0 ∧
      ∀ j < i, (times n kind t j).toNat ≤ (times n kind t (j + 1)).toNat := by
  have hzero := times_zero (t := t) hn kind
  rw [hzero] at hbound ⊢
  refine ⟨?_, fun j hj => ?_⟩
  · rw [times_eq hn hmono hstep hstart kind i hbound]
    omega
  · have hle : t j ≤ t (j + 1) := hmono (Nat.le_succ j)
    have hle' : t (j + 1) ≤ t i := hmono hj
    rw [times_eq hn hmono hstep hstart kind j (by omega), times_eq hn hmono hstep hstart kind
      (j + 1) (by omega)]
    omega

def tickingTimes : ℕ → TIMESTAMP :=
  times 8 (fun i => if i % 2 = 0 then .rel else .full) fun i => 250 + 4 * i

theorem times_follow_wrap :
    (tickingTimes 3).toNat - (tickingTimes 0).toNat = 262 - 250 ∧
      ∀ j < 3, (tickingTimes j).toNat ≤ (tickingTimes (j + 1)).toNat :=
  times_follow (by decide) (fun i j hij => Nat.add_le_add_left (Nat.mul_le_mul_left 4 hij) 250)
    (fun i => by omega) (by decide) _ 3 (by decide)

end TraceDecoder
