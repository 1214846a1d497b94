import TraceDecoder.Lib.Scanning

/-!
# Formats

A format relates a string to what is left of it behind a part with that format. `Denotes` says that
a scanner succeeds on the strings of a format, `Obtains` what it finds there.
-/

open CString Scan

abbrev Format := List Char → List Char → Prop

namespace Format

def chain : List Format → Format
  | [] => fun s t => s = t
  | F :: Fs => fun s t => ∃ u, F s u ∧ chain Fs u t

def either (F G : Format) : Format := fun s t => F s t ∨ G s t

def lit (w : List Char) : Format := fun s t => s = w ++ t

def blanks : Format := fun s t => t = s.dropWhile (· = ' ')

/-- All characters up to `c`. -/
def upTo (c : Char) : Format := fun s t => t = s.dropWhile fun x => x ≠ c ∧ x ≠ '\x00'

def digitAhead : Format := fun s t => s = t ∧ IsDigit 10 (peek s)

/-- What `strtoul` and `strtoull` convert. -/
def number (base : ℕ) : Format := fun s t => (strtoull base s).2 = t ∧ t.length ≠ s.length

def value (base : ℕ) (v : BitVec 64) : Format :=
  fun s t => number base s t ∧ (strtoull base s).1 = v

def flag : Format := fun s t => s = '0' :: t ∨ s = '1' :: t

def flagOf (b : Bool) : Format := lit [if b then '1' else '0']

def any : Format := fun s t => ∃ c, s = c :: t

theorem chain_append {Fs Gs : List Format} {s t : List Char} :
    chain (Fs ++ Gs) s t ↔ ∃ u, chain Fs s u ∧ chain Gs u t := by
  induction Fs generalizing s with
  | nil =>
    constructor
    · intro h
      exact ⟨s, rfl, h⟩
    · rintro ⟨_, rfl, h⟩
      exact h
  | cons F Fs ih =>
    constructor
    · rintro ⟨u, hF, hrest⟩
      obtain ⟨v, hFs, hGs⟩ := ih.mp hrest
      exact ⟨v, ⟨u, hF, hFs⟩, hGs⟩
    · rintro ⟨v, ⟨u, hF, hFs⟩, hGs⟩
      exact ⟨u, hF, ih.mpr ⟨v, hFs, hGs⟩⟩

end Format

variable {α β : Type}

/-- The scanner succeeds on the strings with the format, and leaves what is behind. -/
def Denotes (q : Scan α) (F : Format) : Prop := ∀ s t, (∃ a, q s = some (a, t)) ↔ F s t

namespace Denotes

open Format (chain)

variable {q : Scan α} {F : Format}

theorem functional (h : Denotes q F) {s t t' : List Char} (ht : F s t) (ht' : F s t') : t = t' := by
  obtain ⟨a, ha⟩ := (h s t).mpr ht
  obtain ⟨b, hb⟩ := (h s t').mpr ht'
  rw [ha] at hb
  exact congrArg Prod.snd (Option.some.inj hb)

theorem pure (a : α) : Denotes (pure a) (chain []) := by
  intro s t
  constructor
  · rintro ⟨_, ⟨⟩⟩
    rfl
  · rintro rfl
    exact ⟨a, rfl⟩

theorem step {f : α → Scan β} {Fs : List Format} (hq : Denotes q F)
    (hf : ∀ a, Denotes (f a) (chain Fs)) :
    Denotes (q >>= f) (chain (F :: Fs)) := by
  intro s t
  constructor
  · rintro ⟨b, hrun⟩
    rw [bind_eq] at hrun
    obtain ⟨⟨a, u⟩, hfirst, hrest⟩ := Option.bind_eq_some_iff.mp hrun
    exact ⟨u, (hq s u).mp ⟨a, hfirst⟩, (hf a u t).mp ⟨b, hrest⟩⟩
  · rintro ⟨u, hF, hFs⟩
    obtain ⟨a, hfirst⟩ := (hq s u).mpr hF
    obtain ⟨b, hrest⟩ := (hf a u t).mpr hFs
    refine ⟨b, ?_⟩
    rw [bind_eq, hfirst]
    exact hrest

theorem append {f : α → Scan β} {Fs Gs : List Format} (hq : Denotes q (chain Fs))
    (hf : ∀ a, Denotes (f a) (chain Gs)) :
    Denotes (q >>= f) (chain (Fs ++ Gs)) := by
  intro s t
  rw [Format.chain_append]
  have hstep := hq.step hf s t
  exact hstep

theorem last (hq : Denotes q F) : Denotes q (chain [F]) := by
  intro s t
  rw [hq s t]
  constructor
  · intro h
    exact ⟨t, h, rfl⟩
  · rintro ⟨_, h, rfl⟩
    exact h

theorem expect {c : Char} (hc : c ≠ '\x00') : Denotes (expect c) (Format.lit [c]) := by
  intro s t
  unfold Scan.expect
  constructor
  · rintro ⟨a, h⟩
    split_ifs at h with hpeek
    cases h
    cases s with
    | nil => exact absurd hpeek.symm hc
    | cons d s => rw [show d = c from hpeek]; rfl
  · rintro rfl
    exact ⟨(), if_pos rfl⟩

theorem keyword (w : List Char) : Denotes (keyword w) (Format.lit w) := by
  intro s t
  unfold Scan.keyword
  constructor
  · rintro ⟨a, h⟩
    split_ifs at h with hprefix
    cases h
    exact (List.prefix_iff_eq_append.mp (List.isPrefixOf_iff_prefix.mp hprefix)).symm
  · rintro rfl
    refine ⟨(), ?_⟩
    rw [if_pos (List.isPrefixOf_iff_prefix.mpr (List.prefix_append w t)), List.drop_left]

theorem skipSpaces : Denotes skipSpaces Format.blanks := by
  intro s t
  constructor
  · rintro ⟨a, ⟨⟩⟩
    rfl
  · rintro rfl
    exact ⟨(), rfl⟩

theorem skipTo (c : Char) : Denotes (skipTo c) (Format.upTo c) := by
  intro s t
  constructor
  · rintro ⟨a, ⟨⟩⟩
    rfl
  · rintro rfl
    exact ⟨(), rfl⟩

theorem number (base : ℕ) : Denotes (number base) (Format.number base) := by
  intro s t
  simp only [Scan.number, Format.number]
  constructor
  · rintro ⟨a, h⟩
    split_ifs at h with hlength
    cases h
    exact ⟨rfl, hlength⟩
  · rintro ⟨rfl, hlength⟩
    exact ⟨_, if_neg hlength⟩

theorem flag : Denotes flag Format.flag := by
  intro s t
  unfold Scan.flag
  constructor
  · rintro ⟨a, h⟩
    split_ifs at h with hpeek
    cases h
    cases s with
    | nil => rcases hpeek with h | h <;> cases h
    | cons d s =>
      rcases hpeek with h | h
      · exact .inl (by rw [show d = '0' from h]; rfl)
      · exact .inr (by rw [show d = '1' from h]; rfl)
  · rintro (rfl | rfl)
    · exact ⟨_, if_pos (.inl rfl)⟩
    · exact ⟨_, if_pos (.inr rfl)⟩

theorem choice {c d : Char} {p p' : Scan α} {Fs Gs : List Format}
    (hp : Denotes p (chain (Format.lit [c] :: Fs)))
    (hp' : Denotes p' (chain (Format.lit [d] :: Gs))) (hne : d ≠ c) :
    Denotes (look >>= fun x => if x = c then p else if x = d then p' else failure)
      (Format.either (chain (Format.lit [c] :: Fs)) (chain (Format.lit [d] :: Gs))) := by
  intro s t
  have hpeek {x : Char} {Hs : List Format} (h : chain (Format.lit [x] :: Hs) s t) : peek s = x := by
    obtain ⟨u, rfl, -⟩ := h
    rfl
  change (∃ a, (if peek s = c then p else if peek s = d then p' else failure) s = some (a, t)) ↔ _
  by_cases hc : peek s = c
  · rw [if_pos hc, hp s t]
    exact ⟨.inl, fun h => h.elim id fun h => absurd (hpeek h ▸ hc) hne⟩
  rw [if_neg hc]
  by_cases hd : peek s = d
  · rw [if_pos hd, hp' s t]
    exact ⟨.inr, fun h => h.elim (fun h => absurd (hpeek h) hc) id⟩
  · rw [if_neg hd]
    constructor
    · rintro ⟨a, h⟩
      cases h
    · rintro (h | h)
      · exact absurd (hpeek h) hc
      · exact absurd (hpeek h) hd

end Denotes

/-- On the strings with the format the scanner finds a value of a kind,
and leaves what is behind. -/
def Obtains (q : Scan α) (F : Format) (P : α → Prop) : Prop :=
  ∀ s t, F s t → ∃ a, q s = some (a, t) ∧ P a

theorem Denotes.obtains {q : Scan α} {F : Format} {P : α → Prop} (h : Denotes q F)
    (hP : Gives q P) : Obtains q F P := by
  intro s t hF
  obtain ⟨a, ha⟩ := (h s t).mpr hF
  exact ⟨a, ha, hP s a t ha⟩

theorem Denotes.any {q : Scan α} {F : Format} (h : Denotes q F) : Obtains q F fun _ => True :=
  h.obtains fun _ _ _ _ => trivial

namespace Obtains

open Format (chain)

variable {q : Scan α} {F : Format} {P : α → Prop} {Q : β → Prop}

theorem pure {a : α} (h : P a) : Obtains (pure a) (chain []) P := by
  rintro s _ rfl
  exact ⟨a, rfl, h⟩

theorem step {f : α → Scan β} {Fs : List Format} (hq : Obtains q F P)
    (hf : ∀ a, P a → Obtains (f a) (chain Fs) Q) : Obtains (q >>= f) (chain (F :: Fs)) Q := by
  rintro s t ⟨u, hF, hFs⟩
  obtain ⟨a, ha, hP⟩ := hq s u hF
  obtain ⟨b, hb, hQ⟩ := hf a hP u t hFs
  refine ⟨b, ?_, hQ⟩
  rw [bind_eq, ha]
  exact hb

theorem append {f : α → Scan β} {Fs Gs : List Format} (hq : Obtains q (chain Fs) P)
    (hf : ∀ a, P a → Obtains (f a) (chain Gs) Q) : Obtains (q >>= f) (chain (Fs ++ Gs)) Q := by
  intro s t h
  rw [Format.chain_append] at h
  exact hq.step hf s t h

theorem number (base : ℕ) (v : BitVec 64) :
    Obtains (number base) (Format.value base v) (· = v) := by
  rintro s t ⟨⟨rfl, hlength⟩, rfl⟩
  exact ⟨_, if_neg hlength, rfl⟩

theorem flag (b : Bool) : Obtains flag (Format.flagOf b) (· = b) := by
  rintro s t rfl
  cases b with
  | true => exact ⟨true, rfl, rfl⟩
  | false => exact ⟨false, rfl, rfl⟩

theorem pass : Obtains pass Format.any fun _ => True := by
  rintro s t ⟨c, rfl⟩
  exact ⟨(), rfl, trivial⟩

end Obtains
