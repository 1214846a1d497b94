import TraceDecoder.Lib.CStrings

/-!
# Scanning a buffer

Functions that read a string with a pointer and give up at the first thing that they do not expect.
The strings of a buffer stand one behind the other, each with its null character, and nothing keeps
a pointer from passing that. `Shadows` relates the runs of two such functions, the second of which
has more of the buffer in front of it: where the first succeeds on its string alone, so does the
second, with a related value and without a look at what follows.
-/

open CString

/-- The pointer is the rest of the buffer; `none` is a syntax error. -/
abbrev Scan := StateT (List Char) Option

/-- What functions that scan a string are made of. -/
class Scanner (m : Type → Type) where
  look : m Char
  startsWith (w : List Char) : m Bool
  pass : m Unit
  expect (c : Char) : m Unit
  keyword (w : List Char) : m Unit
  skipSpaces : m Unit
  skipTo (c : Char) : m Unit
  number (base : ℕ) : m (BitVec 64)
  flag : m Bool
  fail {α : Type} : m α

variable {α β γ δ : Type}

namespace Scan

def look : Scan Char := fun s => some (peek s, s)

def startsWith (w : List Char) : Scan Bool := fun s => some (w.isPrefixOf s, s)

def pass : Scan Unit := fun s => some ((), s.tail)

def expect (c : Char) : Scan Unit := fun s => if peek s = c then some ((), s.tail) else none

def keyword (w : List Char) : Scan Unit :=
  fun s => if w.isPrefixOf s then some ((), s.drop w.length) else none

def skipSpaces : Scan Unit := fun s => some ((), s.dropWhile (· = ' '))

/-- A loop that stops at `c` also stops at the end of the string. -/
def skipTo (c : Char) : Scan Unit := fun s => some ((), s.dropWhile fun x => x ≠ c ∧ x ≠ '\x00')

/-- `strtoul` and `strtoull`, with the check that there was a number. -/
def number (base : ℕ) : Scan (BitVec 64) := fun s =>
  let (value, endPtr) := strtoull base s
  if endPtr.length = s.length then none else some (value, endPtr)

def flag : Scan Bool :=
  fun s => if peek s = '0' ∨ peek s = '1' then some (peek s = '1', s.tail) else none

instance : Scanner Scan :=
  ⟨look, startsWith, pass, expect, keyword, skipSpaces, skipTo, number, flag, failure⟩

theorem bind_eq (p : Scan α) (f : α → Scan β) (s : List Char) : (p >>= f) s =
    (p s).bind fun r => f r.1 r.2 := rfl

def Gives (q : Scan α) (P : α → Prop) : Prop := ∀ s a t, q s = some (a, t) → P a

theorem Gives.pure {P : α → Prop} {a : α} (h : P a) : Gives (pure a) P := by
  rintro s _ t ⟨⟩
  exact h

theorem Gives.bind {P : β → Prop} {q : Scan α} {f : α → Scan β} (hf : ∀ a, Gives (f a) P) :
    Gives (q >>= f) P := by
  intro s b t h
  rw [bind_eq] at h
  obtain ⟨⟨a, u⟩, -, hrest⟩ := Option.bind_eq_some_iff.mp h
  exact hf a u b t hrest

end Scan

open Scan

/-! ### What is behind a string -/

section
variable (s more : List Char)

theorem peek_behind : peek (s ++ '\x00' :: more) = peek s := by
  cases s <;> rfl

theorem ne_nil_of_peek {s : List Char} (h : peek s ≠ '\x00') : s ≠ [] := by
  rintro rfl
  exact h rfl

theorem tail_behind {s : List Char} (h : peek s ≠ '\x00') : (s ++ '\x00' :: more).tail = s.tail ++
    '\x00' :: more :=
  List.tail_append_of_ne_nil (ne_nil_of_peek h)

theorem dropWhile_behind {p : Char → Bool} (hp : p '\x00' = false) :
    (s ++ '\x00' :: more).dropWhile p = s.dropWhile p ++ '\x00' :: more := by
  induction s with
  | nil => exact List.dropWhile_cons_of_neg (by simp [hp])
  | cons c s ih =>
    rw [List.cons_append, List.dropWhile_cons, List.dropWhile_cons, ih]
    split_ifs <;> rfl

theorem takeWhile_behind {p : Char → Bool} (hp : p '\x00' = false) : (s ++ '\x00' :: more).takeWhile
    p = s.takeWhile p := by
  induction s with
  | nil => exact List.takeWhile_cons_of_neg (by simp [hp])
  | cons c s ih => rw [List.cons_append, List.takeWhile_cons, List.takeWhile_cons, ih]

theorem isPrefixOf_behind {w : List Char} (hw : '\x00' ∉ w) :
    w.isPrefixOf (s ++ '\x00' :: more) = w.isPrefixOf s := by
  induction w generalizing s with
  | nil => rfl
  | cons c w ih =>
    have hc : c ≠ '\x00' := fun h => hw (h ▸ List.mem_cons_self)
    cases s with
    | nil => simp [List.isPrefixOf, hc]
    | cons d s =>
      simp only [List.cons_append, List.isPrefixOf, ih s fun h => hw (List.mem_cons_of_mem _ h)]

theorem skipPrefix_behind (base : ℕ) :
    skipPrefix base (s ++ '\x00' :: more) = skipPrefix base s ++ '\x00' :: more := by
  unfold skipPrefix
  by_cases hzero : peek s = '0'
  · have htail := tail_behind more (s := s) (by rw [hzero]; decide)
    rw [peek_behind, htail, peek_behind]
    by_cases hx : digitVal (peek s.tail) = 33
    · rw [tail_behind more (s := s.tail) (fun h => by rw [h] at hx; exact absurd hx (by decide)),
        peek_behind]
      split_ifs <;> rfl
    · rw [if_neg fun h => hx h.2.2.1, if_neg fun h => hx h.2.2.1]
  · rw [peek_behind, if_neg fun h => hzero h.2.1, if_neg fun h => hzero h.2.1]

theorem skipSign_behind : (if peek s = '-' ∨ peek s = '+' then (s ++ '\x00' :: more).tail
      else s ++ '\x00' :: more) =
    (if peek s = '-' ∨ peek s = '+' then s.tail else s) ++ '\x00' :: more := by
  by_cases h : peek s = '-' ∨ peek s = '+'
  · rw [if_pos h, if_pos h, tail_behind]
    rcases h with h | h <;> rw [h] <;> decide
  · rw [if_neg h, if_neg h]

theorem digit_behind {base : ℕ} (hbase : base ≤ 36) : decide (IsDigit base '\x00') = false := by
  rw [decide_eq_false_iff_not, IsDigit, show digitVal '\x00' = 36 by decide]
  omega

theorem strtoull_behind {base : ℕ} (hbase : base ≤ 36) :
    strtoull base (s ++ '\x00' :: more) = ((strtoull base s).1, (strtoull base s).2 ++ '\x00' ::
        more) := by
  have hspaces := dropWhile_behind (p := fun c => decide (IsSpace c)) s more (by decide)
  have htaken (t : List Char) :=
    takeWhile_behind (p := fun c => decide (IsDigit base c)) t more (digit_behind hbase)
  have hleft (t : List Char) :=
    dropWhile_behind (p := fun c => decide (IsDigit base c)) t more (digit_behind hbase)
  simp only [strtoull, hspaces, peek_behind, skipSign_behind, skipPrefix_behind, htaken, hleft]
  split_ifs <;> rfl

theorem strtoll_behind {base : ℕ} (hbase : base ≤ 36) :
    strtoll base (s ++ '\x00' :: more) =
      ((strtoll base s).1, (strtoll base s).2 ++ '\x00' :: more) := by
  have hspaces := dropWhile_behind (p := fun c => decide (IsSpace c)) s more (by decide)
  have htaken (t : List Char) :=
    takeWhile_behind (p := fun c => decide (IsDigit base c)) t more (digit_behind hbase)
  have hleft (t : List Char) :=
    dropWhile_behind (p := fun c => decide (IsDigit base c)) t more (digit_behind hbase)
  simp only [strtoll, hspaces, peek_behind, skipSign_behind, skipPrefix_behind, htaken, hleft]
  split_ifs <;> rfl

end

/-! ### Runs side by side -/

def Shadows (R : α → β → Prop) (p : Scan α) (q : Scan β) : Prop :=
  ∀ s a s' more, p s = some (a, s') → ∃ b, q (s ++ '\x00' :: more) =
    some (b, s' ++ '\x00' :: more) ∧ R a b

namespace Shadows

variable {R : α → β → Prop} {S : γ → δ → Prop}

theorem pure {a : α} {b : β} (h : R a b) : Shadows R (pure a) (pure b) := by
  rintro s a s' more ⟨⟩
  exact ⟨b, rfl, h⟩

theorem fail {q : Scan β} : Shadows R failure q := nofun

theorem bind {p : Scan α} {q : Scan β} {f : α → Scan γ} {g : β → Scan δ} (hp : Shadows R p q)
    (hf : ∀ a b, R a b → Shadows S (f a) (g b)) : Shadows S (p >>= f) (q >>= g) := by
  intro s c s' more h
  rw [bind_eq] at h
  obtain ⟨⟨a, t⟩, hrun, hrest⟩ := Option.bind_eq_some_iff.mp h
  obtain ⟨b, hq, hab⟩ := hp s a t more hrun
  obtain ⟨d, hg, hcd⟩ := hf a b hab t c s' more hrest
  exact ⟨d, by rw [bind_eq, hq]; exact hg, hcd⟩

theorem step {p : Scan α} {f : α → Scan γ} {g : α → Scan δ} (hp : Shadows (· = ·) p p)
    (hf : ∀ a, Shadows S (f a) (g a)) :
    Shadows S (p >>= f) (p >>= g) := hp.bind fun a _ hab => hab ▸ hf a

theorem look : Shadows (· = ·) look look := by
  rintro s a s' more ⟨⟩
  exact ⟨_, by rw [Scan.look, peek_behind], rfl⟩

theorem startsWith {w : List Char} (hw : '\x00' ∉ w) :
    Shadows (· = ·) (startsWith w) (startsWith w) := by
  rintro s a s' more ⟨⟩
  exact ⟨_, by rw [Scan.startsWith, isPrefixOf_behind s more hw], rfl⟩

theorem expect {c : Char} (hc : c ≠ '\x00') : Shadows (· = ·) (expect c) (expect c) := by
  intro s a s' more h
  unfold Scan.expect at h ⊢
  rw [peek_behind]
  split_ifs at h ⊢ with hpeek
  cases h
  exact ⟨(), by rw [tail_behind more (hpeek ▸ hc)], rfl⟩

theorem keyword {w : List Char} (hw : '\x00' ∉ w) : Shadows (· = ·) (keyword w) (keyword w) := by
  intro s a s' more h
  unfold Scan.keyword at h ⊢
  rw [isPrefixOf_behind s more hw]
  split_ifs at h ⊢ with hpre
  cases h
  refine ⟨(), ?_, rfl⟩
  rw [List.drop_append_of_le_length (List.isPrefixOf_iff_prefix.mp hpre).length_le]

theorem skipSpaces : Shadows (· = ·) skipSpaces skipSpaces := by
  rintro s a s' more ⟨⟩
  exact ⟨(), by rw [Scan.skipSpaces, dropWhile_behind s more (by decide)], rfl⟩

theorem skipTo {c : Char} : Shadows (· = ·) (skipTo c) (skipTo c) := by
  rintro s a s' more ⟨⟩
  exact ⟨(), by rw [Scan.skipTo, dropWhile_behind s more (by simp)], rfl⟩

theorem number {base : ℕ} (hbase : base ≤ 36) : Shadows (· = ·) (number base) (number base) := by
  intro s a s' more h
  simp only [Scan.number, strtoull_behind s more hbase, List.length_append,
    Nat.add_right_cancel_iff] at h ⊢
  split_ifs at h ⊢
  cases h
  exact ⟨_, rfl, rfl⟩

theorem flag : Shadows (· = ·) flag flag := by
  intro s a s' more h
  unfold Scan.flag at h ⊢
  rw [peek_behind]
  split_ifs at h ⊢ with hpeek
  cases h
  refine ⟨_, ?_, rfl⟩
  rw [tail_behind more]
  rcases hpeek with hpeek | hpeek <;> rw [hpeek] <;> decide

/-- A step past a character that need not be there, with a keyword to follow. -/
theorem pass_keyword {w : List Char} (hw : '\x00' ∉ w) (hne : w ≠ []) {f g : Unit → Scan γ}
    {S : γ → γ → Prop} (hf : Shadows S (f ()) (g ())) :
    Shadows S (pass >>= fun _ => Scan.skipSpaces >>= fun _ => Scan.keyword w >>= f)
      (pass >>= fun _ => Scan.skipSpaces >>= fun _ => Scan.keyword w >>= g) := by
  intro s c s' more h
  cases s with
  | nil =>
    obtain ⟨x, w, rfl⟩ := List.exists_cons_of_ne_nil hne
    cases h
  | cons x s => exact (Shadows.skipSpaces.step fun _ => (Shadows.keyword hw).step fun _ => hf) s c s' more h

end Shadows
