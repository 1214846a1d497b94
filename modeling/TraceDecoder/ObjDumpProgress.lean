import Mathlib.Data.List.TakeWhile
import TraceDecoder.ObjDumpTables

/-!
# How the parser for objdump comes to an end

Every loop of the parser takes characters out of the text or stops, but one: the loop that skips a
line behind the file name `<unknown>` has no end where the text has no end of line. So the parser
returns for exactly the texts where each of these lines it comes to is ended.
-/

namespace TraceDecoder

open Dialogue

namespace ObjDump

/-! ### Calls take characters -/

namespace Text

variable {t : List Char}

theorem length_rest_le (stop : Char → Bool) (t : List Char) : (rest stop t).length ≤ t.length :=
  (List.dropWhile_suffix _).length_le

theorem mem_rest {stop : Char → Bool} {c : Char} (hstop : stop c = true) (h : c ∈ t) :
    c ∈ rest stop t := by
  rw [← @List.takeWhile_append_dropWhile _ (fun c => !stop c) t, List.mem_append] at h
  refine h.resolve_left fun htake => ?_
  have hnot := List.mem_takeWhile_imp htake
  rw [hstop] at hnot
  cases hnot

theorem head_skipWS {c : Char} {t' : List Char} (h : skipWS t = c :: t') :
    (c == ' ' || c == '\r' || c == '\t') = false := by
  have hhead := List.head?_dropWhile_not (fun c => !!(c == ' ' || c == '\r' || c == '\t')) t
  rw [show t.dropWhile _ = c :: t' from h] at hhead
  simpa using hhead

/-- A character behind white space that is no token belongs to a string. -/
theorem endsString_of_charToken {c : Char} (hws : (c == ' ' || c == '\r' || c == '\t') = false)
    (htoken : charToken c = none) :
    endsString c = false := by
  unfold charToken at htoken
  unfold endsString
  split at htoken <;> simp_all

theorem nextLex_cases (t : List Char) :
    (skipWS t = [] ∧ nextLex t = (.eof, [], [])) ∨
    (∃ c t' token, skipWS t = c :: t' ∧ charToken c = some token ∧ nextLex t = (token, [], t')) ∨
    ∃ c t', skipWS t = c :: t' ∧ charToken c = none ∧ endsString c = false ∧
      nextLex t = (.string, c :: taken endsString (fun _ => true) t', rest endsString t') := by
  match hws : skipWS t with
  | [] => exact .inl ⟨rfl, by unfold nextLex; rw [hws]⟩
  | c :: t' =>
    cases htoken : charToken c with
    | some token =>
      exact .inr (.inl ⟨c, t', token, rfl, htoken, by unfold nextLex; rw [hws]; simp only [htoken]⟩)
    | none =>
      have hstop := endsString_of_charToken (head_skipWS hws) htoken
      have hrest : rest endsString (c :: t') = rest endsString t' :=
        List.dropWhile_cons_of_pos (by simp [hstop])
      have htaken : taken endsString (fun _ => true) (c :: t') = c :: taken endsString
          (fun _ => true) t' := by
        rw [taken, List.takeWhile_cons_of_pos (by simp [hstop]), List.filter_cons_of_pos rfl]
        rfl
      refine .inr (.inr ⟨c, t', rfl, htoken, hstop, ?_⟩)
      unfold nextLex
      rw [hws]
      simp only [htoken, hrest, htaken]

theorem charToken_ne_eof (c : Char) : charToken c ≠ some .eof := by
  unfold charToken
  split <;> simp

theorem skipWS_length_le (t : List Char) : (skipWS t).length ≤ t.length := length_rest_le _ t

theorem nextLex_length (h : (nextLex t).1 ≠ .eof) : (nextLex t).2.2.length < t.length := by
  have hskip := skipWS_length_le t
  rcases nextLex_cases t with ⟨-, hlex⟩ | ⟨c, t', token, hws, -, hlex⟩ | ⟨c, t', hws, -, -, hlex⟩
  · rw [hlex] at h
    exact absurd rfl h
  · rw [hws] at hskip
    rw [hlex]
    exact hskip
  · rw [hws] at hskip
    rw [hlex]
    exact Nat.lt_of_lt_of_le (Nat.lt_succ_of_le (length_rest_le endsString t')) hskip

theorem nextLex_newline (h : '\n' ∈ t) : (nextLex t).1 = .eol ∨ (nextLex t).1 ≠ .eof ∧ '\n' ∈
    (nextLex t).2.2 := by
  have hskip : '\n' ∈ skipWS t := mem_rest (by decide) h
  rcases nextLex_cases t with ⟨hws, -⟩ | ⟨c, t', token, hws, htoken, hlex⟩ | ⟨c, t', hws, htoken,
    hstop, hlex⟩
  · rw [hws] at hskip
    cases hskip
  · rw [hws, List.mem_cons] at hskip
    rw [hlex]
    rcases hskip with rfl | hmem
    · exact .inl (Option.some.inj htoken).symm
    · exact .inr ⟨fun heof => charToken_ne_eof c (heof ▸ htoken), hmem⟩
  · rw [hws, List.mem_cons] at hskip
    rw [hlex]
    rcases hskip with rfl | hmem
    · cases htoken
    · exact .inr ⟨nofun, mem_rest (by decide) hmem⟩

theorem nextLex_no_newline (h : '\n' ∉ t) : (nextLex t).1 ≠ .eol ∧ '\n' ∉ (nextLex t).2.2 := by
  have hskip : '\n' ∉ skipWS t := fun hmem => h ((List.dropWhile_suffix _).mem hmem)
  rcases nextLex_cases t with ⟨-, hlex⟩ | ⟨c, t', token, hws, htoken, hlex⟩ | ⟨c, t', hws, -, -,
    hlex⟩
  · rw [hlex]
    exact ⟨by decide, List.not_mem_nil⟩
  · rw [hws, List.mem_cons, not_or] at hskip
    rw [hlex]
    refine ⟨fun heol => hskip.1 ?_, hskip.2⟩
    have hcolon : charToken c = some .eol := heol ▸ htoken
    unfold charToken at hcolon
    split at hcolon <;> simp_all
  · rw [hws, List.mem_cons, not_or] at hskip
    rw [hlex]
    exact ⟨nofun, fun hmem => hskip.2 ((List.dropWhile_suffix _).mem hmem)⟩

theorem skipWS_suffix (t : List Char) : skipWS t <:+ t := List.dropWhile_suffix _

theorem nextLex_suffix (t : List Char) : (nextLex t).2.2 <:+ t := by
  have hskip := skipWS_suffix t
  rcases nextLex_cases t with ⟨-, hlex⟩ | ⟨c, t', token, hws, -, hlex⟩ | ⟨c, t', hws, -, -, hlex⟩
  · rw [hlex]
    exact List.nil_suffix
  · rw [hws] at hskip
    rw [hlex]
    exact (List.suffix_cons c t').trans hskip
  · rw [hws] at hskip
    rw [hlex]
    exact (List.dropWhile_suffix _).trans ((List.suffix_cons c t').trans hskip)

theorem restOfLine_suffix (t : List Char) : (restOfLine t).2.2 <:+ t := by
  have hskip := skipWS_suffix t
  unfold restOfLine
  match hws : skipWS t with
  | [] => exact List.nil_suffix
  | c :: t' =>
    rw [hws] at hskip
    dsimp only
    by_cases hnewline : c = '\n'
    · rw [if_pos hnewline]
      exact (List.suffix_cons c t').trans hskip
    · rw [if_neg hnewline]
      exact (List.dropWhile_suffix _).trans hskip

theorem fixedField_suffix (t : List Char) : (fixedField t).2 <:+ t := by
  unfold fixedField
  match t with
  | [] => exact List.suffix_refl []
  | c :: t =>
    dsimp only
    split_ifs
    · exact List.suffix_refl _
    · exact List.nil_suffix
    · exact (List.drop_suffix 7 t).trans (List.suffix_cons c t)

theorem answer_suffix (c : Call) (t : List Char) : (answer c t).2 <:+ t := by
  cases c with
  | getNextLex => exact nextLex_suffix t
  | getRestOfLine => exact restOfLine_suffix t
  | isWSLookahead => exact List.suffix_refl t
  | parseFixedField => exact fixedField_suffix t

end Text

theorem Holds.answer {s : ObjDump} {t : List Char} (h : s.Holds t) (c : Call) :
    (ObjDump.answer c s).1 = (Text.answer c t).1 ∧ (ObjDump.answer c s).2.Holds
    (Text.answer c t).2 := by
  cases c with
  | getNextLex =>
    obtain ⟨s', heq, hs'⟩ := h.getNextLex
    change (s.getNextLex.1, s.getNextLex.2.1) = ((Text.nextLex t).1, (Text.nextLex t).2.1) ∧
      s.getNextLex.2.2.Holds (Text.nextLex t).2.2
    rw [heq]
    exact ⟨rfl, hs'⟩
  | getRestOfLine =>
    obtain ⟨s', heq, hs'⟩ := h.getRestOfLine
    change (s.getRestOfLine.1, s.getRestOfLine.2.1) =
      ((Text.restOfLine t).1, (Text.restOfLine t).2.1) ∧
        s.getRestOfLine.2.2.Holds (Text.restOfLine t).2.2
    rw [heq]
    exact ⟨rfl, hs'⟩
  | isWSLookahead =>
    obtain ⟨s', heq, hs'⟩ := h.isWSLookahead
    change s.isWSLookahead.1 = Text.wsLookahead t ∧ s.isWSLookahead.2.Holds t
    rw [heq]
    exact ⟨rfl, hs'⟩
  | parseFixedField =>
    obtain ⟨s', heq, hs'⟩ := h.parseFixedField
    change s.parseFixedField.1 = (Text.fixedField t).1 ∧
      s.parseFixedField.2.Holds (Text.fixedField t).2
    rw [heq]
    exact ⟨rfl, hs'⟩

namespace Parser

variable {α β : Type} {n : ℕ}

/-- A program does on the pipe what it does on the text. -/
theorem run_text (d : Parser α) : Matches Holds Holds (d.run ObjDump.answer) (d.run Text.answer) :=
  run_matches (fun c _ _ h => h.answer c) d

theorem run_suffix {d : Parser α} {t t' : List Char} {a : α} (h : d.run Text.answer t = .ok a t') :
    t' <:+ t :=
  (run_keeps (fun u => u <:+ t) (fun c u hu => (Text.answer_suffix c u).trans hu) d).of_ok
    (List.suffix_refl t) h

theorem run_length_le {d : Parser α} {t t' : List Char} {a : α}
    (h : d.run Text.answer t = .ok a t') :
    t'.length ≤ t.length := (run_suffix h).length_le

/-! ### Programs that settle -/

/-- On texts of at most `n` characters the program ends, and it skips no line. -/
def Settles (n : ℕ) (d : Parser α) : Prop :=
  ∀ t, t.length ≤ n → (∀ t', d.run Text.answer t ≠ .error .outOfFuel t') ∧
    ∀ w ∈ d.notes Text.answer t, w.1 ≠ .scoot

/-- The program takes characters unless its result is as `Q` says. -/
def Takes (Q : α → Prop) (d : Parser α) : Prop :=
  ∀ t a t', d.run Text.answer t = .ok a t' → ¬ Q a → t'.length < t.length

namespace Settles

theorem pure (a : α) : Settles n (pure a : Parser α) := fun _ _ => ⟨nofun, nofun⟩

theorem err : Settles n (err : Parser α) := fun _ _ => ⟨nofun, nofun⟩

theorem write {w : Note} (h : w ≠ .scoot) : Settles n (write w) :=
  fun _ _ => ⟨nofun, List.forall_mem_singleton.mpr h⟩

theorem ite {c : Prop} [Decidable c] {d d' : Parser α} (hd : Settles n d) (hd' : Settles n d') :
    Settles n (if c then d else d') := by
  by_cases hc : c
  · rw [if_pos hc]
    exact hd
  · rw [if_neg hc]
    exact hd'

/-- The text that is left may be shorter for what comes next. -/
theorem bind_of {d : Parser α} {f : α → Parser β} (hd : Settles n d)
    (hf : ∀ t a t', t.length ≤ n → d.run Text.answer t = .ok a t' → ∃ m, t'.length ≤ m ∧
      Settles m (f a)) :
    Settles n (d >>= f) := by
  intro t ht
  obtain ⟨hends, hnotes⟩ := hd t ht
  rw [run_bind, notes_bind]
  cases hrun : d.run Text.answer t with
  | error e t' =>
    dsimp only
    rw [List.append_nil]
    exact ⟨fun u hu => hends t' (by cases hu; exact hrun), hnotes⟩
  | ok a t' =>
    obtain ⟨m, hm, hsettles⟩ := hf t a t' ht hrun
    exact ⟨(hsettles t' hm).1, List.forall_mem_append.mpr ⟨hnotes, (hsettles t' hm).2⟩⟩

theorem bind {d : Parser α} {f : α → Parser β} (hd : Settles n d) (hf : ∀ a, Settles n (f a)) :
    Settles n (d >>= f) :=
  hd.bind_of fun _ a _ ht hrun => ⟨n, (run_length_le hrun).trans ht, hf a⟩

/-- Where characters have been taken, there is text for one step less. -/
theorem bind_takes {d : Parser α} {f : α → Parser β} {Q : α → Prop} (hd : Settles n d)
    (htakes : Takes Q d)
    (hQ : ∀ a, Q a → Settles n (f a)) (hf : ∀ a m, m + 1 = n → Settles m (f a)) :
    Settles n (d >>= f) := by
  refine hd.bind_of fun t a t' ht hrun => ?_
  by_cases ha : Q a
  · exact ⟨n, (run_length_le hrun).trans ht, hQ a ha⟩
  · have hlt := htakes t a t' hrun ha
    exact ⟨n - 1, by omega, hf a (n - 1) (by omega)⟩

theorem call_bind {c : Call} {f : Answer c → Parser α} (h : ∀ r, Settles n (f r)) :
    Settles n (.call c f) :=
  fun t ht => h _ _ ((Text.answer_suffix c t).length_le.trans ht)

theorem note_bind {w : Note} {d : Parser α} (hw : w ≠ .scoot) (h : Settles n d) :
    Settles n (.note w d) :=
  bind (write hw) fun _ => h

end Settles

/-! ### Programs that get stuck -/

def Stuck (w : Note × List Char) : Prop := w.1 = .scoot ∧ '\n' ∉ w.2

/-- On texts of at most `n` characters the program ends, but where it gets stuck. -/
def Stalls (n : ℕ) (d : Parser α) : Prop :=
  ∀ t, t.length ≤ n → ((∃ t', d.run Text.answer t = .error .outOfFuel t') ↔
    ∃ w ∈ d.notes Text.answer t, Stuck w)

theorem Settles.stalls {d : Parser α} (h : Settles n d) : Stalls n d := by
  refine fun t ht => ⟨fun ⟨t', hrun⟩ => absurd hrun ((h t ht).1 t'), fun ⟨w, hw, hstuck⟩ => ?_⟩
  exact absurd hstuck.1 ((h t ht).2 w hw)

namespace Stalls

theorem ite {c : Prop} [Decidable c] {d d' : Parser α} (hd : Stalls n d) (hd' : Stalls n d') :
    Stalls n (if c then d else d') := by
  by_cases hc : c
  · rw [if_pos hc]
    exact hd
  · rw [if_neg hc]
    exact hd'

theorem bind_of {d : Parser α} {f : α → Parser β} (hd : Stalls n d)
    (hf : ∀ t a t', t.length ≤ n → d.run Text.answer t = .ok a t' → ∃ m, t'.length ≤ m ∧
      Stalls m (f a)) :
    Stalls n (d >>= f) := by
  intro t ht
  have hiff := hd t ht
  rw [run_bind, notes_bind]
  cases hrun : d.run Text.answer t with
  | error e t' =>
    rw [hrun] at hiff
    dsimp only
    rw [List.append_nil, ← hiff]
    constructor
    · rintro ⟨u, hu⟩
      cases hu
      exact ⟨t', rfl⟩
    · rintro ⟨u, hu⟩
      cases hu
      exact ⟨t', rfl⟩
  | ok a t' =>
    obtain ⟨m, hm, hstalls⟩ := hf t a t' ht hrun
    rw [hrun] at hiff
    have hnone : ¬ ∃ w ∈ d.notes Text.answer t, Stuck w := fun hw => by
      obtain ⟨u, hu⟩ := hiff.mpr hw
      cases hu
    dsimp only
    rw [hstalls t' hm]
    constructor
    · rintro ⟨w, hw, hstuck⟩
      exact ⟨w, List.mem_append_right _ hw, hstuck⟩
    · rintro ⟨w, hw, hstuck⟩
      exact ⟨w, (List.mem_append.mp hw).resolve_left fun hleft => hnone ⟨w, hleft, hstuck⟩, hstuck⟩

theorem bind {d : Parser α} {f : α → Parser β} (hd : Settles n d) (hf : ∀ a, Stalls n (f a)) :
    Stalls n (d >>= f) :=
  hd.stalls.bind_of fun _ a _ ht hrun => ⟨n, (run_length_le hrun).trans ht, hf a⟩

theorem bind_takes {d : Parser α} {f : α → Parser β} {Q : α → Prop} (hd : Stalls n d)
    (htakes : Takes Q d)
    (hQ : ∀ a, Q a → Stalls n (f a)) (hf : ∀ a m, m + 1 = n → Stalls m (f a)) :
    Stalls n (d >>= f) := by
  refine hd.bind_of fun t a t' ht hrun => ?_
  by_cases ha : Q a
  · exact ⟨n, (run_length_le hrun).trans ht, hQ a ha⟩
  · have hlt := htakes t a t' hrun ha
    exact ⟨n - 1, by omega, hf a (n - 1) (by omega)⟩

end Stalls

namespace Takes

theorem getNextLex (room : ℕ) : Takes (fun r => r.1 = .eof) (getNextLex room) := by
  intro t r t' h hr
  cases h
  exact Text.nextLex_length hr

theorem bind {d : Parser α} {f : α → Parser β} {Q : α → Prop} {Q' : β → Prop} (hd : Takes Q d)
    (hf : ∀ a, Q a → Takes Q' (f a)) : Takes Q' (d >>= f) := by
  intro t b t' h hb
  rw [run_bind] at h
  cases hrun : d.run Text.answer t with
  | error e u =>
    rw [hrun] at h
    cases h
  | ok a u =>
    rw [hrun] at h
    by_cases ha : Q a
    · exact Nat.lt_of_lt_of_le (hf a ha u b t' h hb) (run_length_le hrun)
    · exact Nat.lt_of_le_of_lt (run_length_le h) (hd t a u hrun ha)

theorem pure {Q : α → Prop} {a : α} (h : Q a) : Takes Q (pure a) := by
  intro t b t' hrun hb
  cases hrun
  exact absurd h hb

theorem err {Q : α → Prop} : Takes Q err := fun _ _ _ h => nomatch h

end Takes

end Parser

end ObjDump

end TraceDecoder
