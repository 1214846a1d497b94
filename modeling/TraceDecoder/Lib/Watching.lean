import TraceDecoder.Lib.Program
import TraceDecoder.Lib.Scanning

/-!
# What a scanner looks at

A scanner that is watched keeps the length of what nobody has looked at so far. `Stays` says of it
that it does what the scanner does on a string alone, and looks at nothing behind the null character
of the string.
-/

open CString EStateM

/-- `unread` characters at the end of the buffer have not been looked at. -/
structure Watch where
  rest : List Char
  unread : ℕ

/-- The watch when the `n` characters in front of the pointer have been looked at. -/
def Watch.seen (n : ℕ) (w : Watch) : Watch := { w with unread := min w.unread (w.rest.length - n) }

abbrev Watched := EStateM Unit Watch

/-- The number of characters that `strncmp` looks at to compare a string with `w`. -/
def compared : List Char → List Char → ℕ
  | [], _ => 0
  | _, [] => 1
  | c :: w, d :: s => if c = d then compared w s + 1 else 1

def stringLength (s : List Char) : ℕ := (s.takeWhile (· ≠ '\x00')).length

namespace Watched

def watch {α : Type} (n : List Char → ℕ) (q : Scan α) : Watched α := fun w =>
  match q w.rest with
  | some (a, rest) => .ok a { w.seen (n w.rest) with rest }
  | none => .error () (w.seen (n w.rest))

instance : Scanner Watched where
  look := watch (fun _ => 1) Scan.look
  startsWith w := watch (compared w) (Scan.startsWith w)
  pass := watch (fun _ => 0) Scan.pass
  expect c := watch (fun _ => 1) (Scan.expect c)
  keyword w := watch (compared w) (Scan.keyword w)
  skipSpaces := watch (fun s => (s.takeWhile (· = ' ')).length + 1) Scan.skipSpaces
  skipTo c := watch (fun s => (s.takeWhile fun x => x ≠ c ∧ x ≠ '\x00').length + 1) (Scan.skipTo c)
  number base := watch (fun s => stringLength s + 1) (Scan.number base)
  flag := watch (fun _ => 1) Scan.flag
  fail := watch (fun _ => 0) failure

end Watched

variable {α β : Type}

/-- On the string `s`, with `more` behind its null character. -/
def StaysAt (p : Watched α) (q : Scan α) (s : List Char) : Prop :=
  ∀ more u, more.length ≤ u → match q s with
    | some (a, t) => t <:+ s ∧ ∃ u', p ⟨s ++ '\x00' :: more, u⟩ = .ok a ⟨t ++ '\x00' :: more, u'⟩ ∧
        more.length ≤ u'
    | none => ∃ w, p ⟨s ++ '\x00' :: more, u⟩ = .error () w ∧ more.length ≤ w.unread

def Stays (p : Watched α) (q : Scan α) : Prop := ∀ s, '\x00' ∉ s → StaysAt p q s

theorem StaysAt.run {p : Watched α} {q : Scan α} {s t : List Char} {a : α} (h : StaysAt p q s)
    (hq : q s = some (a, t)) (more : List Char) {u : ℕ} (hu : more.length ≤ u) :
    ∃ u', p ⟨s ++ '\x00' :: more, u⟩ = .ok a ⟨t ++ '\x00' :: more, u'⟩ ∧ more.length ≤ u' := by
  have hrun := h more u hu
  rw [hq] at hrun
  exact hrun.2

theorem StaysAt.bind {p : Watched α} {q : Scan α} {f : α → Watched β} {g : α → Scan β}
    {s : List Char} (hp : StaysAt p q s)
    (hf : ∀ a t, q s = some (a, t) → StaysAt (f a) (g a) t) : StaysAt (p >>= f) (q >>= g) s := by
  intro more u hu
  have hfirst := hp more u hu
  rw [Scan.bind_eq]
  cases hq : q s with
  | none =>
    rw [hq] at hfirst
    obtain ⟨w, hrun, hw⟩ := hfirst
    exact ⟨w, bind_error hrun, hw⟩
  | some r =>
    obtain ⟨a, t⟩ := r
    rw [hq] at hfirst
    obtain ⟨hsuffix, u', hrun, hu'⟩ := hfirst
    have hrest := hf a t hq more u' hu'
    rw [Option.bind_some, bind_ok hrun]
    cases hg : g a t with
    | none =>
      rw [hg] at hrest
      exact hrest
    | some r =>
      rw [hg] at hrest
      exact ⟨hrest.1.trans hsuffix, hrest.2⟩

/-- What is left of a string has no null character either. -/
theorem Stays.rest {p : Watched α} {q : Scan α} (h : Stays p q) {s t : List Char} {a : α}
    (hs : '\x00' ∉ s) (hq : q s = some (a, t)) :
    '\x00' ∉ t := by
  have hrun := h s hs [] 0 (Nat.le_refl 0)
  rw [hq] at hrun
  exact fun hmem => hs (hrun.1.mem hmem)

namespace Stays

theorem pure (a : α) : Stays (pure a) (pure a) := fun s _ _ u hu => ⟨List.suffix_refl s, u, rfl, hu⟩

theorem bind {p : Watched α} {q : Scan α} {f : α → Watched β} {g : α → Scan β} (hp : Stays p q)
    (hf : ∀ a, Stays (f a) (g a)) :
    Stays (p >>= f) (q >>= g) := by
  intro s hs
  apply (hp s hs).bind
  intro a t ht
  exact hf a t (hp.rest hs ht)

theorem ite {c : Prop} [Decidable c] {p p' : Watched α} {q q' : Scan α} (hp : Stays p q)
    (hq : Stays p' q') :
    Stays (if c then p else p') (if c then q else q') := by
  split_ifs
  · exact hp
  · exact hq

/-- A step that looks at nothing behind the null character. -/
theorem watch {n : List Char → ℕ} {q : Scan α} (hshadows : Shadows (· = ·) q q)
    (hnone : ∀ s more, '\x00' ∉ s → q s = none → q (s ++ '\x00' :: more) = none)
    (hsuffix : ∀ s a t, q s = some (a, t) → t <:+ s)
    (hn : ∀ s more, '\x00' ∉ s → n (s ++ '\x00' :: more) ≤ s.length + 1) :
    Stays (Watched.watch n q) q := by
  intro s hs more u hu
  have hseen : more.length ≤ min u ((s ++ '\x00' :: more).length - n (s ++ '\x00' :: more)) := by
    have hlength := hn s more hs
    rw [List.length_append, List.length_cons]
    omega
  cases hq : q s with
  | none =>
    refine ⟨Watch.seen (n (s ++ '\x00' :: more)) ⟨s ++ '\x00' :: more, u⟩, ?_, hseen⟩
    simp only [Watched.watch, hnone s more hs hq]
  | some r =>
    obtain ⟨a, t⟩ := r
    obtain ⟨b, hrun, rfl⟩ := hshadows s a t more hq
    refine ⟨hsuffix s a t hq, _, ?_, hseen⟩
    simp only [Watched.watch, hrun]
    rfl

theorem compared_le {w s : List Char} (hw : '\x00' ∉ w) (more : List Char) :
    compared w (s ++ '\x00' :: more) ≤ s.length + 1 := by
  induction w generalizing s with
  | nil => exact Nat.zero_le _
  | cons c w ih =>
    have hc : c ≠ '\x00' := fun h => hw (h ▸ List.mem_cons_self)
    cases s with
    | nil =>
      rw [List.nil_append, compared, if_neg hc]
      exact Nat.le_add_left 1 _
    | cons d s =>
      rw [List.cons_append, compared, List.length_cons]
      have hrest := ih (s := s) fun h => hw (List.mem_cons_of_mem _ h)
      split_ifs <;> omega

theorem length_takeWhile_behind {p : Char → Bool} (hp : p '\x00' = false) (s more : List Char) :
    ((s ++ '\x00' :: more).takeWhile p).length + 1 ≤ s.length + 1 := by
  rw [takeWhile_behind s more hp]
  exact Nat.succ_le_succ (List.takeWhile_prefix p).length_le

theorem look : Stays Scanner.look Scan.look := by
  apply watch Shadows.look
  · intro s more _ h
    cases h
  · rintro s a t ⟨⟩
    exact List.suffix_refl s
  · intro s more _
    exact Nat.le_add_left 1 _

theorem startsWith {w : List Char} (hw : '\x00' ∉ w) :
    Stays (Scanner.startsWith w) (Scan.startsWith w) := by
  apply watch (Shadows.startsWith hw)
  · intro s more _ h
    cases h
  · rintro s a t ⟨⟩
    exact List.suffix_refl s
  · intro s more _
    exact compared_le hw more

theorem expect {c : Char} (hc : c ≠ '\x00') : Stays (Scanner.expect c) (Scan.expect c) := by
  apply watch (Shadows.expect hc)
  · intro s more _ h
    unfold Scan.expect at h ⊢
    rw [peek_behind]
    split_ifs at h ⊢
    rfl
  · intro s a t h
    unfold Scan.expect at h
    split_ifs at h
    cases h
    exact List.tail_suffix s
  · intro s more _
    exact Nat.le_add_left 1 _

theorem keyword {w : List Char} (hw : '\x00' ∉ w) : Stays (Scanner.keyword w) (Scan.keyword w) := by
  apply watch (Shadows.keyword hw)
  · intro s more _ h
    unfold Scan.keyword at h ⊢
    rw [isPrefixOf_behind s more hw]
    split_ifs at h ⊢
    rfl
  · intro s a t h
    unfold Scan.keyword at h
    split_ifs at h
    cases h
    exact List.drop_suffix _ s
  · intro s more _
    exact compared_le hw more

theorem skipSpaces : Stays Scanner.skipSpaces Scan.skipSpaces := by
  apply watch Shadows.skipSpaces
  · intro s more _ h
    cases h
  · rintro s a t ⟨⟩
    exact List.dropWhile_suffix _
  · intro s more _
    exact length_takeWhile_behind (by decide) s more

theorem skipTo {c : Char} : Stays (Scanner.skipTo c) (Scan.skipTo c) := by
  apply watch Shadows.skipTo
  · intro s more _ h
    cases h
  · rintro s a t ⟨⟩
    exact List.dropWhile_suffix _
  · intro s more _
    exact length_takeWhile_behind (by simp) s more

theorem strtoull_suffix (base : ℕ) (s : List Char) : (strtoull base s).2 <:+ s := by
  unfold strtoull
  have hspaces : s.dropWhile (IsSpace ·) <:+ s := List.dropWhile_suffix _
  have hsign (t : List Char) : (if peek t = '-' ∨ peek t = '+' then t.tail else t) <:+ t := by
    split_ifs
    · exact List.tail_suffix t
    · exact List.suffix_refl t
  have hbegins (t : List Char) : skipPrefix base t <:+ t := by
    unfold skipPrefix
    split_ifs
    · exact (List.tail_suffix _).trans (List.tail_suffix t)
    · exact List.suffix_refl t
  dsimp only
  have hdigits := (hbegins _).trans ((hsign _).trans hspaces)
  generalize skipPrefix base _ = t at hdigits ⊢
  by_cases h : IsDigit base (peek t)
  · rw [if_pos h]
    exact (List.dropWhile_suffix _).trans hdigits
  · simp only [if_neg h, List.suffix_refl]

theorem number {base : ℕ} (hbase : base ≤ 36) : Stays (Scanner.number base) (Scan.number base) := by
  apply watch (Shadows.number hbase)
  · intro s more _ h
    simp only [Scan.number, strtoull_behind s more hbase, List.length_append,
      Nat.add_right_cancel_iff] at h ⊢
    split_ifs at h ⊢
    rfl
  · intro s a t h
    simp only [Scan.number] at h
    split_ifs at h
    cases h
    exact strtoull_suffix base s
  · intro s more _
    exact length_takeWhile_behind (by simp) s more

theorem flag : Stays Scanner.flag Scan.flag := by
  apply watch Shadows.flag
  · intro s more _ h
    unfold Scan.flag at h ⊢
    rw [peek_behind]
    split_ifs at h ⊢
    rfl
  · intro s a t h
    unfold Scan.flag at h
    split_ifs at h
    cases h
    exact List.tail_suffix s
  · intro s more _
    exact Nat.le_add_left 1 _

theorem fail : Stays (Scanner.fail : Watched α) (failure : Scan α) := by
  apply watch (Shadows.fail)
  · intro s more _ _
    rfl
  · intro s a t h
    cases h
  · intro s more _
    exact Nat.zero_le _

end Stays

theorem StaysAt.pass {s : List Char} (hs : s ≠ []) : StaysAt Scanner.pass Scan.pass s := by
  obtain ⟨c, s, rfl⟩ := List.exists_cons_of_ne_nil hs
  intro more u hu
  refine ⟨List.suffix_cons c s, min u ((c :: s ++ '\x00' :: more).length - 0), rfl, ?_⟩
  simp only [List.length_append, List.length_cons]
  omega
