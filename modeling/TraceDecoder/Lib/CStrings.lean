import Mathlib.Algebra.Group.Int.Defs
import Mathlib.Algebra.Group.Nat.Defs
import Mathlib.Data.Int.Notation
import Mathlib.Tactic.Common

/-!
# Strings of C

A string is the list of its characters; a null character stands behind them. A pointer into a string
is the rest of the string from there on. The formats of `printf` have the grammar of the conversion
specifications of C, with the number of arguments that a format uses; a format outside of the
grammar has no defined meaning.
-/

namespace CString

-- A test of each character of a string looks at these, not at all the characters there are.
instance decidableEach (p : Char → Prop) [DecidablePred p] (s : List Char) :
    Decidable (∀ c ∈ s, p c) := List.decidableBAll p s

def peek (s : List Char) : Char := s.headD '\x00'

/-- The value of a digit in the bases up to 36, and 36 for other characters. -/
def digitVal (c : Char) : ℕ :=
  if 48 ≤ c.toNat ∧ c.toNat ≤ 57 then c.toNat - 48
  else if 97 ≤ c.toNat ∧ c.toNat ≤ 122 then c.toNat - 87
  else if 65 ≤ c.toNat ∧ c.toNat ≤ 90 then c.toNat - 55
  else 36

def IsDigit (base : ℕ) (c : Char) : Prop := digitVal c < base

instance (base : ℕ) : DecidablePred (IsDigit base) :=
  fun c => inferInstanceAs (Decidable (digitVal c < base))

def ofDigits (base : ℕ) (ds : List Char) : ℕ := ds.foldl (fun n c => base * n + digitVal c) 0

def IsSpace (c : Char) : Prop := c.toNat = 32 ∨ 9 ≤ c.toNat ∧ c.toNat ≤ 13

instance : DecidablePred IsSpace :=
  fun c => inferInstanceAs (Decidable (c.toNat = 32 ∨ 9 ≤ c.toNat ∧ c.toNat ≤ 13))

/-- The nearest value of a 64-bit `long long`. -/
def clampInt64 (n : ℤ) : ℤ := max (-2 ^ 63) (min n (2 ^ 63 - 1))

/-- The `0x` that may stand in front of the digits of base 16; alone, its `0` is a digit. -/
def skipPrefix (base : ℕ) (s : List Char) : List Char :=
  if base = 16 ∧ peek s = '0' ∧ digitVal (peek s.tail) = 33 ∧ IsDigit 16 (peek s.tail.tail)
    then s.tail.tail else s

/-- The value and the end pointer, which is the start when nothing can be converted. -/
def strtoll (base : ℕ) (s : List Char) : ℤ × List Char :=
  let t := s.dropWhile (IsSpace ·)
  let sign : ℤ := if peek t = '-' then -1 else 1
  let t := if peek t = '-' ∨ peek t = '+' then t.tail else t
  let t := skipPrefix base t
  if IsDigit base (peek t) then
    (clampInt64 (sign * ofDigits base (t.takeWhile (IsDigit base ·))), t.dropWhile (IsDigit base ·))
  else (0, s)

/-- As `strtoll`, for values modulo 2^64; one that does not fit becomes the greatest. -/
def strtoull (base : ℕ) (s : List Char) : BitVec 64 × List Char :=
  let t := s.dropWhile (IsSpace ·)
  let minus := peek t = '-'
  let t := if peek t = '-' ∨ peek t = '+' then t.tail else t
  let t := skipPrefix base t
  if IsDigit base (peek t) then
    let n := ofDigits base (t.takeWhile (IsDigit base ·))
    (if 2 ^ 64 ≤ n then BitVec.allOnes 64 else if minus then -BitVec.ofNat 64 n
      else BitVec.ofNat 64 n, t.dropWhile (IsDigit base ·))
  else (0, s)

theorem clampInt64_of_lt {n : ℕ} (h : n < 2 ^ 63) : clampInt64 n = n := by
  rw [clampInt64]
  omega

variable {α : Type} {p : α → Bool}

/-- A loop stops at the first character behind those it passes. -/
theorem dropWhile_append_stop {xs ys : List α} (hxs : ∀ x ∈ xs, p x = true)
    (hys : ∀ y ∈ ys.head?, p y = false) : (xs ++ ys).dropWhile p = ys := by
  rw [List.dropWhile_append_of_pos hxs]
  cases ys with
  | nil => rfl
  | cons y ys => rw [List.dropWhile_cons_of_neg (by simp [hys y rfl])]

theorem takeWhile_append_stop {xs ys : List α} (hxs : ∀ x ∈ xs, p x = true)
    (hys : ∀ y ∈ ys.head?, p y = false) : (xs ++ ys).takeWhile p = xs := by
  rw [List.takeWhile_append_of_pos hxs]
  cases ys with
  | nil => rw [List.takeWhile_nil, List.append_nil]
  | cons y ys => rw [List.takeWhile_cons_of_neg (by simp [hys y rfl]), List.append_nil]

theorem digit_not_space {c : Char} {base : ℕ} (hbase : base ≤ 36) (h : IsDigit base c) :
    ¬ IsSpace c := by
  unfold IsDigit digitVal at h
  unfold IsSpace
  split_ifs at h <;> omega

theorem digit_not_sign {c : Char} {base : ℕ} (hbase : base ≤ 36) (h : IsDigit base c) :
    ¬ (c = '-' ∨ c = '+') := by
  rintro (rfl | rfl)
  · exact absurd h (by unfold IsDigit; rw [show digitVal '-' = 36 by decide]; omega)
  · exact absurd h (by unfold IsDigit; rw [show digitVal '+' = 36 by decide]; omega)

/-- **Digits** up to a character that is neither a digit nor a letter are converted. -/
theorem strtoll_digits {base : ℕ} {ds rest : List Char} (hbase : base ≤ 16) (hne : ds ≠ [])
    (hds : ∀ c ∈ ds, IsDigit base c) (hrest : digitVal (peek rest) = 36) :
    strtoll base (ds ++ rest) = (clampInt64 (ofDigits base ds), rest) := by
  obtain ⟨d, ds', rfl⟩ := List.exists_cons_of_ne_nil hne
  have hd : IsDigit base d := hds d List.mem_cons_self
  have hspace : (d :: ds' ++ rest).dropWhile (IsSpace ·) = d :: ds' ++ rest := by
    rw [List.cons_append, List.dropWhile_cons_of_neg (by simpa using digit_not_space (by omega) hd)]
  have hsign : ¬ (peek (d :: ds' ++ rest) = '-' ∨ peek (d :: ds' ++ rest) = '+') :=
    digit_not_sign (by omega) hd
  have hminus : ¬ peek (d :: ds' ++ rest) = '-' := fun h => hsign (.inl h)
  have hprefix : skipPrefix base (d :: ds' ++ rest) = d :: ds' ++ rest := by
    rw [skipPrefix, if_neg]
    rintro ⟨-, -, hx, -⟩
    rw [List.cons_append, List.tail_cons] at hx
    cases ds' with
    | nil => rw [List.nil_append, hrest] at hx; omega
    | cons d' ds' =>
      have hd' : digitVal d' < base := hds d' (by simp)
      rw [List.cons_append, peek, List.headD_cons] at hx
      omega
  have hstop : ∀ c ∈ rest.head?, (decide (IsDigit base c)) = false := by
    intro c hc
    cases rest with
    | nil => cases hc
    | cons e rest =>
      obtain rfl := Option.some.inj hc
      rw [peek, List.headD_cons] at hrest
      simp only [IsDigit, hrest, decide_eq_false_iff_not]
      omega
  have hall : ∀ c ∈ d :: ds', decide (IsDigit base c) = true :=
    fun c hc => decide_eq_true (hds c hc)
  rw [strtoll, hspace]
  simp only [if_neg hsign, if_neg hminus, hprefix]
  rw [if_pos (show IsDigit base (peek (d :: ds' ++ rest)) from hd), takeWhile_append_stop hall
    hstop, dropWhile_append_stop hall hstop, Int.one_mul]

/-- A character that a number can begin with, the white space in front of it included. -/
def BeginsNumber (c : Char) : Prop := IsSpace c ∨ c = '-' ∨ c = '+' ∨ IsDigit 16 c

instance : DecidablePred BeginsNumber := fun _ => inferInstanceAs (Decidable (_ ∨ _))

theorem strtoll_none {base : ℕ} {c : Char} {rest : List Char} (hbase : base ≤ 16)
    (hc : ¬ BeginsNumber c) :
    strtoll base (c :: rest) = (0, c :: rest) := by
  obtain ⟨hspace, hminus, hplus, hdigit⟩ : ¬ IsSpace c ∧ c ≠ '-' ∧ c ≠ '+' ∧ ¬ IsDigit 16 c := by
    simpa only [BeginsNumber, not_or] using hc
  have hdrop : (c :: rest).dropWhile (IsSpace ·) = c :: rest :=
    List.dropWhile_cons_of_neg (by simpa using hspace)
  have hsign : ¬ (peek (c :: rest) = '-' ∨ peek (c :: rest) = '+') := fun h => h.elim hminus hplus
  have hzero : peek (c :: rest) ≠ '0' := by
    rintro rfl
    exact hdigit (by decide)
  have hprefix : skipPrefix base (c :: rest) = c :: rest := by
    rw [skipPrefix, if_neg]
    exact fun h => hzero h.2.1
  have hnone : ¬ IsDigit base (peek (c :: rest)) := fun h => hdigit (Nat.lt_of_lt_of_le h hbase)
  rw [strtoll, hdrop]
  simp only [if_neg hsign, hprefix, if_neg hnone]

structure Numeral (base : ℕ) where
  digits : List Char
  digits_ne : digits ≠ []
  isDigit : ∀ c ∈ digits, IsDigit base c

def Numeral.value {base : ℕ} (n : Numeral base) : ℕ := ofDigits base n.digits

theorem strtoll_numeral {base : ℕ} (n : Numeral base) (hbase : base ≤ 16) {rest : List Char}
    (hrest : digitVal (peek rest) = 36) :
    strtoll base (n.digits ++ rest) = (clampInt64 n.value, rest) :=
  strtoll_digits hbase n.digits_ne n.isDigit hrest

end CString

namespace Printf

def IsFlag (c : Char) : Prop := c ∈ ['-', '+', ' ', '#', '0']

def IsConversion (c : Char) : Prop :=
  c ∈ ['d', 'i', 'o', 'u', 'x', 'X', 'e', 'E', 'f', 'F', 'g', 'G', 'a', 'A', 'c', 's', 'p', 'n']

def IsLength (cs : List Char) : Prop :=
  cs ∈ [[], ['h', 'h'], ['h'], ['l'], ['l', 'l'], ['j'], ['z'], ['t'], ['L']]

inductive Width : List Char → ℕ → Prop
  | digits {ds : List Char} (hds : ∀ d ∈ ds, d.isDigit) : Width ds 0
  | star : Width ['*'] 1

inductive Precision : List Char → ℕ → Prop
  | none : Precision [] 0
  | digits {ds : List Char} (hds : ∀ d ∈ ds, d.isDigit) : Precision ('.' :: ds) 0
  | star : Precision ['.', '*'] 1

inductive Uses : List Char → ℕ → Prop
  | nil : Uses [] 0
  | char {c : Char} {text : List Char} {n : ℕ} (hc : c ≠ '%') (htext : Uses text n) :
    Uses (c :: text) n
  | percent {text : List Char} {n : ℕ} (htext : Uses text n) : Uses ('%' :: '%' :: text) n
  | directive {flags width precision length text : List Char} {c : Char} {w p n : ℕ}
    (hflags : ∀ f ∈ flags, IsFlag f) (hwidth : Width width w) (hprecision : Precision precision p)
      (hlength : IsLength length) (hc : IsConversion c)
    (htext : Uses text n) : Uses ('%' :: (flags ++ (width ++ (precision ++ (length ++ c :: text)))))
      (w + p + 1 + n)

theorem Uses.chars {cs text : List Char} {n : ℕ} (hcs : '%' ∉ cs) (htext : Uses text n) :
    Uses (cs ++ text) n := by
  induction cs with
  | nil => exact htext
  | cons c cs ih =>
    apply Uses.char
    · rintro rfl
      exact hcs List.mem_cons_self
    · exact ih fun h => hcs (List.mem_cons_of_mem _ h)

theorem Uses.plain {c : Char} {text : List Char} {n : ℕ} (hc : IsConversion c)
    (htext : Uses text n) : Uses ('%' :: c :: text) (n + 1) := by
  have hlength : IsLength [] := by simp [IsLength]
  have hdirective := Uses.directive (List.forall_mem_nil IsFlag) (.digits (List.forall_mem_nil _))
    .none hlength hc htext
  rw [Nat.add_comm]
  exact hdirective

end Printf
