import TraceDecoder.ObjDumpListing
import TraceDecoder.ObjDumpTermination

/-!
# Texts that are cut off in a line of an unknown file

The loop over the lines of a disassembly is at the start of a line, or at its end, whenever it reads
a token. So the file name `<unknown>`, behind which it skips the rest of a line, is the first thing
in its line; and where that line has no end, it is the last line of the text.
-/

namespace TraceDecoder

open Dialogue

namespace ObjDump

/-- What stands between the `<` and the colon of the file name `<unknown>`; the word is compared up
to a null character. -/
structure UnknownMark (mark : List Char) : Prop where
  split : ∃ ws₁ word ws₂ ws₃, mark = ws₁ ++ (word ++ (ws₂ ++ '>' :: (ws₃ ++ [':']))) ∧
    (∀ c ∈ ws₁ ++ ws₂ ++ ws₃, IsWhite c) ∧ (∀ c ∈ word, endsString c = false) ∧
      cString word = "unknown".toList

/-- A line that begins with the file name `<unknown>` and a colon. -/
def BeginsUnknown (line : List Char) : Prop :=
  ∃ ws mark rest, line = ws ++ '<' :: (mark ++ rest) ∧ (∀ c ∈ ws, IsWhite c) ∧ UnknownMark mark

def CutInUnknown (t : List Char) : Prop :=
  ∃ front line, t = front ++ '\n' :: line ∧ '\n' ∉ line ∧ BeginsUnknown line

/-! ### Tokens and the text in front of them -/

namespace Text

variable {t : List Char}

theorem skipWS_split (t : List Char) : ∃ ws, t = ws ++ skipWS t ∧ ∀ c ∈ ws, IsWhite c := by
  refine ⟨t.takeWhile fun c => !!(c == ' ' || c == '\r' || c == '\t'),
    List.takeWhile_append_dropWhile.symm, fun c hc => ?_⟩
  have hpass := List.mem_takeWhile_imp hc
  simpa [IsWhite, or_assoc] using hpass

theorem charToken_char {c : Char} {token : ObjDumpTokenType} (h : charToken c = some token) :
    (token = .colon → c = ':') ∧ (token = .lt → c = '<') ∧ (token = .gt → c = '>') ∧
    (token = .eol → c = '\n') ∧
      token ≠ .string := by
  unfold charToken at h
  split at h <;> cases h <;> simp

end Text

namespace Parser

variable {α β : Type} {n room : ℕ} {t t' u : List Char} {r : ObjDumpTokenType × List Char}

theorem lex_run (h : (getNextLex room).run Text.answer t = .ok r t') :
    ∃ text, Text.nextLex t = (r.1, text, t') ∧ r.2 = cString text := by
  cases h
  exact ⟨_, rfl, rfl⟩

theorem lex_token (h : (getNextLex room).run Text.answer t = .ok r t') (heof : r.1 ≠ .eof)
    (hstring : r.1 ≠ .string) :
    ∃ ws c, t = ws ++ c :: t' ∧ (∀ c ∈ ws, IsWhite c) ∧ charToken c = some r.1 := by
  obtain ⟨text, hrun, -⟩ := lex_run h
  obtain ⟨ws, hsplit, hws⟩ := Text.skipWS_split t
  rcases Text.nextLex_cases t with ⟨-, hlex⟩ | ⟨c, u, token, hskip, htoken, hlex⟩ | ⟨c, u, -, -, -,
    hlex⟩
  · rw [hlex] at hrun
    exact absurd (Prod.mk.inj hrun).1.symm heof
  · rw [hlex] at hrun
    obtain ⟨rfl, hrest⟩ := Prod.mk.inj hrun
    obtain ⟨-, rfl⟩ := Prod.mk.inj hrest
    exact ⟨ws, c, hskip ▸ hsplit, hws, htoken⟩
  · rw [hlex] at hrun
    exact absurd (Prod.mk.inj hrun).1.symm hstring

theorem lex_string (h : (getNextLex room).run Text.answer t = .ok r t') (hstring : r.1 = .string) :
    ∃ ws word, t = ws ++ (word ++ t') ∧ (∀ c ∈ ws, IsWhite c) ∧ (∀ c ∈ word, endsString c = false) ∧
      r.2 = cString word := by
  obtain ⟨text, hrun, hr⟩ := lex_run h
  obtain ⟨ws, hsplit, hws⟩ := Text.skipWS_split t
  rcases Text.nextLex_cases t with ⟨-, hlex⟩ | ⟨c, u, token, -, htoken, hlex⟩ | ⟨c, u, hskip, -,
    hstop, hlex⟩
  · rw [hlex, hstring] at hrun
    cases (Prod.mk.inj hrun).1
  · rw [hlex, hstring] at hrun
    exact absurd (Prod.mk.inj hrun).1 (Text.charToken_char htoken).2.2.2.2
  · rw [hlex] at hrun
    obtain ⟨-, hrest⟩ := Prod.mk.inj hrun
    obtain ⟨rfl, rfl⟩ := Prod.mk.inj hrest
    have htaken : Text.taken endsString (fun _ => true) u = u.takeWhile fun c => !endsString c :=
      List.filter_eq_self.mpr fun _ _ => rfl
    have hwhole : u.takeWhile (fun c => !endsString c) ++ Text.rest endsString u = u :=
      List.takeWhile_append_dropWhile
    refine ⟨ws, c :: u.takeWhile fun c => !endsString c, ?_, hws, List.forall_mem_cons.mpr
      ⟨hstop, fun d hd => ?_⟩, ?_⟩
    · rw [List.cons_append, hwhole, ← hskip]
      exact hsplit
    · have hpass := List.mem_takeWhile_imp hd
      simpa using hpass
    · rw [hr, htaken]

theorem expect_run {type : ObjDumpTokenType} {lex : List Char}
    (h : (expect room type).run Text.answer t = .ok lex t') :
    (getNextLex room).run Text.answer t = .ok (type, lex) t' := by
  obtain ⟨⟨type', lex'⟩, u, hlex, hrest⟩ := of_run_bind h
  by_cases htype : type' = type
  · rw [if_pos htype] at hrest
    cases hrest
    rw [hlex, htype]
  · rw [if_neg htype] at hrest
    cases hrest

/-! ### The ends of lines -/

def LineEnd (t u : List Char) : Prop := (∃ pre, t = pre ++ '\n' :: u) ∨ u = [] ∨ u.head? = some '\n'

theorem LineEnd.of_suffix (h : LineEnd t u) (ht : t <:+ t') : LineEnd t' u := by
  obtain ⟨pre', rfl⟩ := ht
  rcases h with ⟨pre, rfl⟩ | h
  · exact .inl ⟨pre' ++ pre, (List.append_assoc _ _ _).symm⟩
  · exact .inr h

def EndsLine (d : Parser α) : Prop := ∀ t a u, d.run Text.answer t = .ok a u → LineEnd t u

def Stays (d : Parser α) : Prop := ∀ t a u, d.run Text.answer t = .ok a u → u = t

theorem Stays.pure (a : α) : Stays (pure a) := fun _ _ _ h => by cases h; rfl

theorem Stays.err : Stays (err : Parser α) := fun _ _ _ h => nomatch h

theorem Stays.write (w : Note) : Stays (write w) := fun _ _ _ h => by cases h; rfl

theorem Stays.bind {d : Parser α} {f : α → Parser β} (hd : Stays d) (hf : ∀ a, Stays (f a)) :
    Stays (d >>= f) := by
  intro t b u h
  obtain ⟨a, v, hrun, hrest⟩ := of_run_bind h
  rw [hf a v b u hrest, hd t a v hrun]

theorem Stays.ite {c : Prop} [Decidable c] {d d' : Parser α} (hd : Stays d) (hd' : Stays d') :
    Stays (if c then d else d') := by
  by_cases hc : c
  · rw [if_pos hc]
    exact hd
  · rw [if_neg hc]
    exact hd'

namespace EndsLine

theorem err : EndsLine (err : Parser α) := fun _ _ _ h => nomatch h

theorem bind {d : Parser α} {f : α → Parser β} (hf : ∀ a, EndsLine (f a)) : EndsLine (d >>= f) := by
  intro t b u h
  obtain ⟨a, v, hrun, hrest⟩ := of_run_bind h
  exact (hf a v b u hrest).of_suffix (run_suffix hrun)

theorem stays {d : Parser α} {f : α → Parser β} (hd : EndsLine d) (hf : ∀ a, Stays (f a)) :
    EndsLine (d >>= f) := by
  intro t b u h
  obtain ⟨a, v, hrun, hrest⟩ := of_run_bind h
  rw [hf a v b u hrest]
  exact hd t a v hrun

theorem ite {c : Prop} [Decidable c] {d d' : Parser α} (hd : EndsLine d) (hd' : EndsLine d') :
    EndsLine (if c then d else d') := by
  by_cases hc : c
  · rw [if_pos hc]
    exact hd
  · rw [if_neg hc]
    exact hd'

end EndsLine

theorem lex_ends (h : (getNextLex room).run Text.answer t = .ok r u)
    (hr : r.1 = .eol ∨ r.1 = .eof) : LineEnd t u := by
  rcases hr with heol | heof
  · obtain ⟨ws, c, rfl, -, hc⟩ := lex_token h (by rw [heol]; decide) (by rw [heol]; decide)
    rw [(Text.charToken_char hc).2.2.2.1 heol]
    exact .inl ⟨ws, rfl⟩
  · obtain ⟨text, hrun, -⟩ := lex_run h
    rw [heof] at hrun
    rcases Text.nextLex_cases t with ⟨-, hlex⟩ | ⟨c, v, token, -, htoken, hlex⟩ | ⟨c, v, -, -, -,
      hlex⟩
    · rw [hlex] at hrun
      exact .inr (.inl (Prod.mk.inj (Prod.mk.inj hrun).2).2.symm)
    · rw [hlex] at hrun
      exact absurd ((Prod.mk.inj hrun).1 ▸ htoken) (Text.charToken_ne_eof c)
    · rw [hlex] at hrun
      cases (Prod.mk.inj hrun).1

def Follows (d : ObjDumpTokenType → Parser ObjDumpTokenType) : Prop :=
  ∀ type t type' u, (d type).run Text.answer t = .ok type' u →
    type' = type ∧ u = t ∨ (type' = .eol ∨ type' = .eof → LineEnd t u)

theorem follows_pure : Follows pure := fun _ _ _ _ h => by cases h; exact .inl ⟨rfl, rfl⟩

theorem follows_bind {d : Parser α} {t u : List Char} {type' : ObjDumpTokenType}
    {f : α → Parser ObjDumpTokenType} (h : (d >>= f).run Text.answer t = .ok type' u)
    (hf : ∀ a v, (f a).run Text.answer v = .ok type' u → type' = .eol ∨ type' = .eof →
      LineEnd v u) :
    type' = .eol ∨ type' = .eof → LineEnd t u := by
  obtain ⟨a, v, hrun, hrest⟩ := of_run_bind h
  exact fun htype => (hf a v hrest htype).of_suffix (run_suffix hrun)

theorem follows_lex {t u : List Char} {type' : ObjDumpTokenType}
    (h : (getNextLex room >>= fun r => pure r.1).run Text.answer t = .ok type' u) :
    type' = .eol ∨ type' = .eof → LineEnd t u := by
  obtain ⟨r, v, hrun, hrest⟩ := of_run_bind h
  cases hrest
  exact lex_ends hrun

theorem follows_pathDiscriminator : Follows pathDiscriminator := by
  intro type t type' u h
  unfold pathDiscriminator at h
  by_cases hlp : type = .lp
  · rw [if_pos hlp] at h
    exact .inr (follows_bind h fun _ _ h => follows_bind h fun _ _ h => follows_bind h fun _ _ h =>
      follows_lex h)
  · rw [if_neg hlp] at h
    cases h
    exact .inl ⟨rfl, rfl⟩

theorem follows_lineDiscriminator : Follows lineDiscriminator := by
  intro type t type' u h
  unfold lineDiscriminator at h
  by_cases hlp : type = .lp
  · rw [if_pos hlp] at h
    exact .inr (follows_bind h fun _ _ h => follows_bind h fun _ _ h => follows_bind h fun _ _ h =>
      follows_lex h)
  · rw [if_neg hlp] at h
    cases h
    exact .inl ⟨rfl, rfl⟩

theorem endOfLine_run {type : ObjDumpTokenType} {x : Unit}
    (h : (endOfLine type).run Text.answer t = .ok x u) : (type = .eol ∨ type = .eof) ∧ u = t := by
  unfold endOfLine at h
  by_cases htype : type = .eol ∨ type = .eof
  · rw [if_pos htype] at h
    cases h
    exact ⟨htype, rfl⟩
  · rw [if_neg htype] at h
    cases h

namespace EndsLine

theorem lex {d : ObjDumpTokenType → Parser ObjDumpTokenType} (hd : Follows d)
    {f : ObjDumpTokenType → Unit → Parser α} (hf : ∀ type a, Stays (f type a)) :
    EndsLine (getNextLex room >>= fun r => d r.1 >>= fun type => endOfLine type >>= f type) := by
  intro t b u h
  obtain ⟨r, v, hlex, h₁⟩ := of_run_bind h
  obtain ⟨type, v', hrun, h₂⟩ := of_run_bind h₁
  obtain ⟨x, v'', hend, h₃⟩ := of_run_bind h₂
  obtain ⟨htype, rfl⟩ := endOfLine_run hend
  obtain rfl := hf type x v'' b u h₃
  rcases hd r.1 v type u hrun with ⟨rfl, rfl⟩ | hends
  · exact lex_ends hlex htype
  · exact (hends htype).of_suffix (run_suffix hlex)

theorem restOfLine {f : ObjDumpTokenType × List Char → Unit → Parser α}
    (hf : ∀ r a, Stays (f r a)) :
    EndsLine (getRestOfLine room >>= fun r => endOfLine r.1 >>= f r) := by
  intro t b u h
  obtain ⟨r, v, hline, h₁⟩ := of_run_bind h
  obtain ⟨x, v', hend, h₂⟩ := of_run_bind h₁
  obtain ⟨-, rfl⟩ := endOfLine_run hend
  obtain rfl := hf r x v' b u h₂
  obtain ⟨ws, hsplit, -⟩ := Text.skipWS_split t
  cases hline
  change LineEnd t (Text.restOfLine t).2.2
  unfold Text.restOfLine
  match hskip : Text.skipWS t with
  | [] => exact .inr (.inl rfl)
  | c :: t' =>
    dsimp only
    by_cases hnewline : c = '\n'
    · rw [if_pos hnewline]
      exact .inl ⟨ws, by rw [← hnewline, ← hskip]; exact hsplit⟩
    · rw [if_neg hnewline]
      refine .inr ?_
      have hhead := List.head?_dropWhile_not (fun c : Char => !(c == '\n')) (c :: t')
      change Text.rest (fun c => c == '\n') (c :: t') = [] ∨ (Text.rest (fun c => c == '\n') (c :: t')).head? = _
      unfold Text.rest
      cases hrest : (c :: t').dropWhile fun c => !(c == '\n') with
      | nil => exact .inl rfl
      | cons d v =>
        rw [hrest] at hhead
        exact .inr (congrArg some (by simpa using hhead))

end EndsLine

theorem endsLine_parseFileOrLabelOrDisassembly : EndsLine (parseFileOrLabelOrDisassembly room) := by
  have hplain {room : ℕ} (l : LineT) : EndsLine (getNextLex room >>= fun r => endOfLine r.1 >>= fun _ => pure l) :=
    EndsLine.lex follows_pure fun _ _ => .pure l
  refine .bind fun ⟨type, _⟩ => ?_
  dsimp only
  split
  · exact .bind fun _ => .bind fun _ => .bind fun _ => hplain .label
  · exact .bind fun _ => .bind fun _ => hplain .func
  · refine .bind fun text => ?_
    cases isStringAHexNumber text with
    | none => exact .bind fun _ => .bind fun _ => EndsLine.lex follows_pathDiscriminator fun _ _ => .pure _
    | some n => exact .ite (EndsLine.restOfLine fun _ _ => .pure _) .err
  · exact .err

theorem endsLine_parseFileLine : EndsLine parseFileLine :=
  .bind fun _ => .bind fun _ => EndsLine.lex follows_lineDiscriminator fun _ _ => .pure _

theorem endsLine_numberLine (s : Listing) (addr : ADDRESS) : EndsLine (numberLine s addr) := by
  have hcell {γ : Type} (cells : Option (Cells γ)) (i : ℤ) : Stays (useCell cells i) := .write _
  refine endsLine_parseFileOrLabelOrDisassembly.stays fun l => ?_
  cases l with
  | label => exact .pure _
  | func => exact .pure _
  | diss text length value =>
    exact .bind (hcell _ _) fun _ => .bind (.ite (hcell _ _) (.pure _)) fun _ => .bind (hcell _ _)
        fun _ =>
      .bind (hcell _ _) fun _ => .bind (hcell _ _) fun _ => .pure _
  | path text value => exact .bind (.write _) fun _ => .pure _

theorem endsLine_nameLine (s : Listing) (lex : List Char) : EndsLine (nameLine s lex) := by
  refine endsLine_parseFileOrLabelOrDisassembly.stays fun l => ?_
  cases l with
  | label => exact .err
  | func => exact .pure _
  | diss text length value => exact .err
  | path text value => exact .bind (.write _) fun _ => .bind (.write _) fun _ => .pure _

theorem endsLine_expect_eol : EndsLine (expect room .eol) :=
  fun _ _ _ h => lex_ends (expect_run h) (.inl rfl)

theorem listingLine_ends {s : Listing} {eol : Bool} {lex : List Char} {s' : Listing}
    (h : (listingLine s eol lex).run Text.answer t = .ok (some s') u) : LineEnd t u := by
  unfold listingLine at h
  by_cases hdots : lex = "...".toList
  · rw [if_pos hdots] at h
    exact (endsLine_expect_eol.stays fun _ => .pure _) t _ u h
  · rw [if_neg hdots] at h
    cases hnumber : isStringAHexNumber lex with
    | some addr =>
      rw [hnumber] at h
      exact ((endsLine_numberLine s addr).stays fun _ => .pure _) t _ u h
    | none =>
      rw [hnumber] at h
      dsimp only at h
      split_ifs at h
      · cases h
      · exact (endsLine_parseFileLine.stays fun _ => .pure _) t _ u h
      · exact ((endsLine_nameLine s lex).stays fun _ => .pure _) t _ u h

/-! ### The loop over the lines -/

/-- Where a token has been read: an end of line is in front of the text, or
the first token of a line. -/
structure Position (t : List Char) (r : ObjDumpTokenType × List Char) (u : List Char) : Prop where
  suffix : u <:+ t
  eol : r.1 = .eol → ∃ pre, t = pre ++ '\n' :: u
  lt : r.1 = .lt → ∃ pre ws, t = pre ++ '\n' :: (ws ++ '<' :: u) ∧ ∀ c ∈ ws, IsWhite c

theorem LineEnd.position {v : List Char} (hend : LineEnd t u) (hsuffix : u <:+ t)
    (h : (getNextLex room).run Text.answer u = .ok r v) : Position t r v := by
  refine ⟨(run_suffix h).trans hsuffix, fun heol => ?_, fun hlt => ?_⟩
  · obtain ⟨ws, c, hsplit, -, hc⟩ := lex_token h (by rw [heol]; decide) (by rw [heol]; decide)
    obtain ⟨pre, rfl⟩ := hsuffix
    rw [hsplit, (Text.charToken_char hc).2.2.2.1 heol]
    exact ⟨pre ++ ws, (List.append_assoc _ _ _).symm⟩
  · obtain ⟨ws, c, hsplit, hws, hc⟩ := lex_token h (by rw [hlt]; decide) (by rw [hlt]; decide)
    obtain rfl := (Text.charToken_char hc).2.1 hlt
    rcases hend with ⟨pre, rfl⟩ | rfl | hhead
    · exact ⟨pre, ws, by rw [hsplit], hws⟩
    · exact absurd hsplit (by simp)
    · -- an end of line is no white space inside of a line
      rw [hsplit] at hhead
      cases ws with
      | nil => exact absurd (Option.some.inj hhead) (by decide)
      | cons d ws =>
        obtain rfl : d = '\n' := Option.some.inj hhead
        exact absurd (hws '\n' List.mem_cons_self) (by unfold IsWhite; decide)

theorem skipEols_position {k : ℕ} {eol : Bool} {v : List Char}
    {r' : Bool × ObjDumpTokenType × List Char}
    (hr : Position t r u) (h : (skipEols room k eol r).run Text.answer u = .ok r' v) :
    Position t r'.2 v := by
  induction k generalizing eol r u with
  | zero => cases h
  | succ k ih =>
    unfold skipEols at h
    by_cases heol : r.1 = .eol
    · rw [if_pos heol] at h
      obtain ⟨r₁, u₁, hlex, hrest⟩ := of_run_bind h
      exact ih (LineEnd.position (.inl (hr.eol heol)) hr.suffix hlex) hrest
    · rw [if_neg heol] at h
      cases h
      exact hr

/-- Where a line is skipped, the file name `<unknown>` and a colon stand in front of it, at the
start of their line. -/
def Marks (t : List Char) (w : Note × List Char) : Prop :=
  w.1 = .scoot → ∃ pre ws mark, t = pre ++ '\n' :: (ws ++ '<' :: (mark ++ w.2)) ∧
    (∀ c ∈ ws, IsWhite c) ∧ UnknownMark mark

theorem Marks.of_suffix {w : Note × List Char} (h : Marks u w) (hu : u <:+ t) : Marks t w := by
  intro hscoot
  obtain ⟨pre', rfl⟩ := hu
  obtain ⟨pre, ws, mark, rfl, hws, hmark⟩ := h hscoot
  exact ⟨pre' ++ pre, ws, mark, (List.append_assoc _ _ _).symm, hws, hmark⟩

theorem Settles.marks {d : Parser α} (hd : Settles n d) (ht : t.length ≤ n) (u : List Char) :
    ∀ w ∈ d.notes Text.answer t, Marks u w := fun w hw hscoot => absurd hscoot ((hd t ht).2 w hw)

theorem unknownFile_marks {k : ℕ} (hk : t.length + 2 ≤ k) :
    ∀ w ∈ (unknownFile k).notes Text.answer t, w.1 = .scoot →
    ∃ mark, t = mark ++ w.2 ∧ UnknownMark mark := by
  intro w hw hscoot
  unfold unknownFile at hw
  rw [notes_bind] at hw
  have hquiet {γ : Type} {d : Parser γ} {v : List Char} (hd : Settles v.length d)
      (hmem : w ∈ d.notes Text.answer v) : False :=
    (hd v le_rfl).2 w hmem hscoot
  rcases List.mem_append.mp hw with hw | hw
  · exact (hquiet (settles_expect 1024 _) hw).elim
  · cases hword : (expect 1024 .string).run Text.answer t with
    | error e v =>
      rw [hword] at hw
      cases hw
    | ok lex t₁ =>
      rw [hword] at hw
      dsimp only at hw
      by_cases hunknown : lex = "unknown".toList
      · rw [if_pos hunknown, notes_bind] at hw
        rcases List.mem_append.mp hw with hw | hw
        · exact (hquiet (settles_expect 1024 _) hw).elim
        · cases hgt : (expect 1024 .gt).run Text.answer t₁ with
          | error e v =>
            rw [hgt] at hw
            cases hw
          | ok lex' t₂ =>
            rw [hgt] at hw
            dsimp only at hw
            rw [notes_bind] at hw
            rcases List.mem_append.mp hw with hw | hw
            · exact (hquiet (settles_getNextLex 1024) hw).elim
            · cases hlex : (getNextLex 1024).run Text.answer t₂ with
              | error e v =>
                rw [hlex] at hw
                cases hw
              | ok r t₃ =>
                obtain ⟨type, text⟩ := r
                rw [hlex] at hw
                dsimp only at hw
                by_cases hcolon : type = .colon
                · rw [if_pos hcolon, notes_bind] at hw
                  rcases List.mem_append.mp hw with hw | hw
                  · obtain rfl := List.mem_singleton.mp hw
                    obtain ⟨ws₁, word, rfl, hws₁, hplain, hstring⟩ :=
                      lex_string (expect_run hword) rfl
                    obtain ⟨ws₂, c₂, rfl, hws₂, hc₂⟩ := lex_token (expect_run hgt) nofun nofun
                    obtain ⟨ws₃, c₃, rfl, hws₃, hc₃⟩ :=
                      lex_token hlex (by simp [hcolon]) (by simp [hcolon])
                    obtain rfl := (Text.charToken_char hc₂).2.2.1 rfl
                    obtain rfl := (Text.charToken_char hc₃).1 hcolon
                    refine ⟨ws₁ ++ (word ++ (ws₂ ++ '>' :: (ws₃ ++ [':']))), by simp,
                      ⟨ws₁, word, ws₂, ws₃, rfl, ?_, hplain, ?_⟩⟩
                    · exact List.forall_mem_append.mpr ⟨List.forall_mem_append.mpr ⟨hws₁, hws₂⟩,
                        hws₃⟩
                    · rw [← hunknown]
                      exact hstring.symm
                  · exact absurd hscoot (scoot_notes _ _ _ w hw)
                · rw [if_neg hcolon] at hw
                  split_ifs at hw
                  · exact absurd hscoot (scoot_notes _ _ _ w hw)
                  · cases hw
      · rw [if_neg hunknown] at hw
        cases hw

theorem scoot_run {k : ℕ} {type : ObjDumpTokenType} {x : Unit}
    (h : (scoot k type).run Text.answer t = .ok x u) :
    type = .eol ∧ u = t ∨ ∃ pre, t = pre ++ '\n' :: u := by
  induction k generalizing type t with
  | zero => cases h
  | succ k ih =>
    unfold scoot at h
    by_cases heol : type = .eol
    · rw [if_pos heol] at h
      cases h
      exact .inl ⟨heol, rfl⟩
    · rw [if_neg heol] at h
      obtain ⟨r, v, hlex, hrest⟩ := of_run_bind h
      refine .inr ?_
      rcases ih hrest with ⟨hr, rfl⟩ | ⟨pre, hpre⟩
      · obtain ⟨ws, c, rfl, -, hc⟩ := lex_token hlex (by rw [hr]; decide) (by rw [hr]; decide)
        rw [(Text.charToken_char hc).2.2.2.1 hr]
        exact ⟨ws, rfl⟩
      · obtain ⟨pre', rfl⟩ := run_suffix hlex
        exact ⟨pre' ++ pre, by rw [hpre, List.append_assoc]⟩

theorem unknownFile_run {k : ℕ} {x : Unit} (h : (unknownFile k).run Text.answer t = .ok x u) :
    ∃ pre, t = pre ++ '\n' :: u := by
  obtain ⟨lex, t₁, hword, hrest⟩ := of_run_bind h
  split_ifs at hrest with hunknown
  · obtain ⟨lex', t₂, hgt, hrest⟩ := of_run_bind hrest
    obtain ⟨⟨type, text⟩, t₃, hlex, hrest⟩ := of_run_bind hrest
    have hsuffix : t₃ <:+ t := (run_suffix hlex).trans ((run_suffix hgt).trans (run_suffix hword))
    have hskip {k : ℕ} (hscoot : (scoot k type).run Text.answer t₃ = .ok x u) : ∃ pre,
        t = pre ++ '\n' :: u := by
      rcases scoot_run hscoot with ⟨heol, rfl⟩ | ⟨pre, hpre⟩
      · obtain ⟨ws, c, hsplit, -, hc⟩ := lex_token hlex (by simp [heol]) (by simp [heol])
        obtain rfl := (Text.charToken_char hc).2.2.2.1 heol
        obtain ⟨pre', rfl⟩ := (run_suffix hgt).trans (run_suffix hword)
        exact ⟨pre' ++ ws, by rw [hsplit, List.append_assoc]⟩
      · obtain ⟨pre', rfl⟩ := hsuffix
        exact ⟨pre' ++ pre, by rw [hpre, List.append_assoc]⟩
    dsimp only at hrest
    split_ifs at hrest
    · obtain ⟨_, v, hwrite, hscoot⟩ := of_run_bind hrest
      cases hwrite
      exact hskip hscoot
    · exact hskip hrest
    · cases hrest
  · cases hrest

theorem listing_marks {k : ℕ} (hk : u.length + 3 ≤ k) (s : Listing) (hr : Position t r u) :
    ∀ w ∈ (listing k s r).notes Text.answer u, Marks t w := by
  induction k generalizing s r u with
  | zero => omega
  | succ k ih =>
    unfold listing
    rw [notes_bind]
    refine List.forall_mem_append.mpr ⟨(settles_skipEols 1024 (by omega) false r).marks le_rfl t,
      ?_⟩
    cases hskip : (skipEols 1024 k false r).run Text.answer u with
    | error e v => exact List.forall_mem_nil _
    | ok r' v =>
      obtain ⟨eol, type, lex⟩ := r'
      have hpos := skipEols_position hr hskip
      have hv := run_length_le hskip
      dsimp only
      split
      · rw [notes_bind]
        refine List.forall_mem_append.mpr ⟨fun w hw hscoot => ?_, ?_⟩
        · obtain ⟨pre, ws, hsplit, hws⟩ := hpos.lt rfl
          obtain ⟨mark, hmark, hunknown⟩ := unknownFile_marks (by omega) w hw hscoot
          exact ⟨pre, ws, mark, by rw [hsplit, hmark], hws, hunknown⟩
        · cases hrun : (unknownFile k).run Text.answer v with
          | error e v' => exact List.forall_mem_nil _
          | ok x v' =>
            have hlt := takes_unknownFile k v x v' hrun not_false
            obtain ⟨pre, hpre⟩ := unknownFile_run hrun
            obtain ⟨pre', rfl⟩ := hpos.suffix
            refine ih (by omega) s ⟨(run_suffix hrun).trans (List.suffix_append _ _), fun _ => ?_,
              fun hlt => absurd hlt (by decide)⟩
            exact ⟨pre' ++ pre, by rw [hpre, List.append_assoc]⟩
      · rw [notes_bind]
        refine List.forall_mem_append.mpr ⟨(settles_listingLine s eol lex).marks le_rfl t, ?_⟩
        cases hline : (listingLine s eol lex).run Text.answer v with
        | error e v' => exact List.forall_mem_nil _
        | ok s' v' =>
          cases s' with
          | none => exact (settles_handBack lex _).marks le_rfl t
          | some s' =>
            have hend := (listingLine_ends hline).of_suffix hpos.suffix
            have hsuffix := (run_suffix hline).trans hpos.suffix
            dsimp only
            rw [notes_bind]
            refine List.forall_mem_append.mpr ⟨(settles_getNextLex 1024).marks le_rfl t, ?_⟩
            cases hlex : (getNextLex 1024).run Text.answer v' with
            | error e v'' => exact List.forall_mem_nil _
            | ok r'' v'' =>
              by_cases heof : r''.1 = .eof
              · have hlast : Settles v''.length (listing k s' r'') :=
                  settles_listing_eof (by omega) s' heof
                exact hlast.marks le_rfl t
              · have hlt := Takes.getNextLex 1024 v' r'' v'' hlex heof
                have hle := run_length_le hline
                exact ih (by omega) s' (LineEnd.position hend hsuffix hlex)
      · exact (settles_handBack lex _).marks le_rfl t

/-! ### The whole parse -/

/-- On texts of at most `n` characters lines are skipped only behind `<unknown>` and a colon. -/
def Marked (n : ℕ) (d : Parser α) : Prop :=
  ∀ t, t.length ≤ n → ∀ w ∈ d.notes Text.answer t, Marks t w

theorem Settles.marked {d : Parser α} (hd : Settles n d) : Marked n d := fun t ht => hd.marks ht t

namespace Marked

theorem ite {c : Prop} [Decidable c] {d d' : Parser α} (hd : Marked n d) (hd' : Marked n d') :
    Marked n (if c then d else d') := by
  by_cases hc : c
  · rw [if_pos hc]
    exact hd
  · rw [if_neg hc]
    exact hd'

theorem bind_of {d : Parser α} {f : α → Parser β} (hd : Marked n d)
    (hf : ∀ t a t', t.length ≤ n → d.run Text.answer t = .ok a t' → ∃ m, t'.length ≤ m ∧
      Marked m (f a)) :
    Marked n (d >>= f) := by
  intro t ht
  rw [notes_bind]
  refine List.forall_mem_append.mpr ⟨hd t ht, ?_⟩
  cases hrun : d.run Text.answer t with
  | error e t' => exact nofun
  | ok a t' =>
    obtain ⟨m, hm, hmarked⟩ := hf t a t' ht hrun
    exact fun w hw => (hmarked t' hm w hw).of_suffix (run_suffix hrun)

theorem bind {d : Parser α} {f : α → Parser β} (hd : Marked n d) (hf : ∀ a, Marked n (f a)) :
    Marked n (d >>= f) :=
  hd.bind_of fun _ a _ ht hrun => ⟨n, (run_length_le hrun).trans ht, hf a⟩

theorem bind_takes {d : Parser α} {f : α → Parser β} (hd : Marked n d)
    (htakes : Takes (fun _ => False) d)
    (hf : ∀ a m, m + 1 = n → Marked m (f a)) : Marked n (d >>= f) := by
  refine hd.bind_of fun t a t' ht hrun => ?_
  have hlt := htakes t a t' hrun not_false
  exact ⟨n - 1, by omega, hf a (n - 1) (by omega)⟩

end Marked

theorem marked_parseDisassemblyList {k : ℕ} (hk : n + 3 ≤ k) (eType : ElfType) (lst : List Section)
    (root : SrcFileRoot)
    (startAddr : ADDRESS) : Marked n (parseDisassemblyList k eType lst root startAddr) := by
  refine .bind (settles_keyword _ _).marked fun _ => .bind (settles_keyword _ _).marked fun _ =>
    .bind (settles_expect _ _).marked fun lex => .bind (settles_sectionName eType startAddr
      lex).marked fun lex => ?_
  cases Section.getSectionByName lex lst with
  | none => exact Settles.err.marked
  | some sp =>
    refine .bind (settles_expect _ _).marked fun _ t ht => ?_
    rw [notes_bind]
    refine List.forall_mem_append.mpr ⟨(settles_expect _ _).marks ht t, ?_⟩
    cases heol : (expect 1024 .eol).run Text.answer t with
    | error e t' => exact nofun
    | ok lex' t' =>
      have hsuffix := run_suffix heol
      obtain ⟨ws, c, hsplit, -, hc⟩ := lex_token (expect_run heol) nofun nofun
      obtain rfl := (Text.charToken_char hc).2.2.2.1 rfl
      have hle := hsuffix.length_le
      dsimp only
      rw [notes_bind]
      refine List.forall_mem_append.mpr ⟨listing_marks (by omega) _ ⟨hsuffix, fun _ => ⟨ws, hsplit⟩,
        nofun⟩, ?_⟩
      split
      · exact nofun
      · exact nofun

theorem marked_tables {k : ℕ} (hk : n + 4 ≤ k) (eType : ElfType) (vmaOffset startAddr : ADDRESS)
    (e : ElfData)
    (r : ObjDumpTokenType × List Char) : Marked n (tables eType vmaOffset startAddr k e r) := by
  induction n using Nat.strong_induction_on generalizing k e r with
  | h n ih =>
    obtain ⟨k, rfl⟩ : ∃ k', k = k' + 1 := ⟨k - 1, by omega⟩
    obtain ⟨type, lex⟩ := r
    refine .ite (Settles.pure _).marked (.ite ?_ (.ite ?_ Settles.err.marked))
    · exact .bind_takes (marked_parseDisassemblyList (by omega) _ _ _ _)
        (takes_parseDisassemblyList k _ _ _ _) fun _ m hm => ih m (by omega) (by omega) _ _
    · exact .bind_takes (settles_parseSymbolTable (by omega) _ _ _).marked
        (takes_parseSymbolTable k _ _ _) fun _ m hm => ih m (by omega) (by omega) _ _

theorem marked_parseObjDump {k : ℕ} (hk : n + 4 ≤ k) (e : ElfData)
    (vmaOffset startAddr endAddr : ADDRESS) :
    Marked n (parseObjDump k e vmaOffset startAddr endAddr) := by
  refine .bind (settles_parseElfName (by omega)).marked fun ⟨_, et⟩ => ?_
  dsimp only
  cases archType e.archSize et with
  | none => exact Settles.err.marked
  | some arch =>
    have hblob : Settles n
        (onlyIf (isBlob arch.1) (write (.copy 256 ((blobName startAddr).take 255)))) :=
      .ite (.write nofun) (.pure ())
    exact .ite Settles.err.marked <| .bind hblob.marked
        fun _ => .bind (settles_parseSectionList (by omega) _ _).marked fun ⟨_, r⟩ =>
      .bind (settles_skipEols _ (by omega) false r).marked fun _ =>
      .bind (marked_tables hk _ _ _ _ _) fun _ => (Settles.ite (.pure _) .err).marked

/-- Where the parse gets stuck, the text ends in a line of an unknown file. -/
theorem cutInUnknown_of_stuck {e : ElfData} {vmaOffset startAddr endAddr : ADDRESS}
    {w : Note × List Char}
    (hw : w ∈ (parseObjDump (t.length + 4) e vmaOffset startAddr endAddr).notes Text.answer t)
    (hstuck : Stuck w) :
    CutInUnknown t := by
  obtain ⟨pre, ws, mark, rfl, hws, hmark⟩ :=
    marked_parseObjDump le_rfl e vmaOffset startAddr endAddr t le_rfl w hw hstuck.1
  refine ⟨pre, ws ++ '<' :: (mark ++ w.2), rfl, ?_, ws, mark, w.2, rfl, hws, hmark⟩
  obtain ⟨ws₁, word, ws₂, ws₃, rfl, hwhite, hword, -⟩ := hmark.split
  have hnewline : ∀ c, IsWhite c → c ≠ '\n' := by
    rintro c (rfl | rfl | rfl) <;> decide
  have hplain : '\n' ∉ word := fun hmem => absurd (hword _ hmem) (by decide)
  simp only [List.mem_append, List.mem_cons, List.not_mem_nil, not_or] at hwhite ⊢
  have hnot : ∀ {xs : List Char}, (∀ c ∈ xs, IsWhite c) → '\n' ∉ xs :=
    fun hxs hmem => hnewline _ (hxs _ hmem) rfl
  exact ⟨hnot hws, by decide, ⟨hnot fun c hc => hwhite c (.inl (.inl hc)), hplain, hnot fun c hc =>
    hwhite c (.inl (.inr hc)), by decide, hnot fun c hc => hwhite c (.inr hc), by decide,
      not_false⟩, hstuck.2⟩

end Parser

end ObjDump

end TraceDecoder
