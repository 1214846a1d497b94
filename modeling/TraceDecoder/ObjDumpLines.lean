import TraceDecoder.ObjDumpListing
import TraceDecoder.ObjDumpProgress

/-!
# Reading the lines of a listing

The tokens of the lines, and what the parse functions make of each kind of line.
-/

namespace TraceDecoder

open CString Dialogue

namespace ObjDump

/-! ### Tokens -/

namespace Text

variable {ws w t : List Char} {c : Char}

theorem skipWS_white (h : ∀ c ∈ ws, IsWhite c) (t : List Char) : skipWS (ws ++ t) = skipWS t := by
  refine List.dropWhile_append_of_pos fun c hc => ?_
  rcases h c hc with rfl | rfl | rfl <;> rfl

theorem white_of_blank (h : ∀ c ∈ ws, IsBlank c) : ∀ c ∈ ws, IsWhite c := fun c hc => (h c hc).white

theorem skipWS_cons (h : (c == ' ' || c == '\r' || c == '\t') = false) (t : List Char) :
    skipWS (c :: t) = c :: t := by
  unfold skipWS rest
  rw [List.dropWhile_cons_of_neg (by simpa using h)]

theorem nextLex_char {token : ObjDumpTokenType} (h : charToken c = some token)
    (hc : (c == ' ' || c == '\r' || c == '\t') = false) (t : List Char) :
    nextLex (c :: t) = (token, [], t) := by
  unfold nextLex
  rw [skipWS_cons hc]
  simp only [h]

theorem charToken_of_endsString (h : endsString c = false) :
    charToken c = none ∧ (c == ' ' || c == '\r' || c == '\t') = false := by
  have hne : ∀ d, endsString d = true → c ≠ d := fun d hd heq => by
    rw [← heq, h] at hd
    cases hd
  refine ⟨?_, ?_⟩
  · unfold charToken
    split
    · exact absurd rfl (hne ',' rfl)
    · exact absurd rfl (hne ':' rfl)
    · exact absurd rfl (hne '<' rfl)
    · exact absurd rfl (hne '>' rfl)
    · exact absurd rfl (hne '(' rfl)
    · exact absurd rfl (hne ')' rfl)
    · exact absurd rfl (hne '\n' rfl)
    · rfl
  · simp [hne ' ' rfl, hne '\r' rfl, hne '\t' rfl]

theorem nextLex_word (hws : ∀ c ∈ ws, IsWhite c) (hne : w ≠ []) (hw : ∀ c ∈ w, endsString c = false)
    (ht : ∀ c ∈ t.head?, endsString c = true) : nextLex (ws ++ (w ++ t)) = (.string, w, t) := by
  have hskip : skipWS (ws ++ (w ++ t)) = w ++ t := by
    rw [skipWS_white hws]
    obtain ⟨c, w, rfl⟩ := List.exists_cons_of_ne_nil hne
    exact skipWS_cons (charToken_of_endsString (hw c List.mem_cons_self)).2 _
  have hpass : ∀ c ∈ w, (!endsString c) = true := fun c hc => by rw [hw c hc]; rfl
  have hstop : ∀ c ∈ t.head?, (!endsString c) = false := fun c hc => by rw [ht c hc]; rfl
  have htaken : taken endsString (fun _ => true) (w ++ t) = w := by
    rw [taken, takeWhile_append_stop hpass hstop, List.filter_eq_self.mpr fun _ _ => rfl]
  have hrest : rest endsString (w ++ t) = t := dropWhile_append_stop hpass hstop
  unfold nextLex
  rw [hskip]
  obtain ⟨c, w', hcons⟩ := List.exists_cons_of_ne_nil hne
  have hc : charToken c = none :=
    (charToken_of_endsString (hw c (by rw [hcons]; exact List.mem_cons_self))).1
  rw [hcons, List.cons_append]
  simp only [hc]
  rw [← List.cons_append, ← hcons, htaken, hrest]

theorem nextLex_white (hws : ∀ c ∈ ws, IsWhite c) (t : List Char) :
    nextLex (ws ++ t) = nextLex t := by
  unfold nextLex
  rw [skipWS_white hws]

/-- The rest of a line without the white space in front; the end of the line is taken only where
there is nothing else. -/
theorem restOfLine_text (hws : ∀ c ∈ ws, IsBlank c) (hstart : ∀ c ∈ w.head?, ¬ IsBlank c)
    (hw : ∀ c ∈ w, c ≠ '\n' ∧ c ≠ '\r') (t : List Char) :
    restOfLine (ws ++ (w ++ '\n' :: t)) = (.eol, w, if w = [] then t else '\n' :: t) := by
  cases w with
  | nil =>
    unfold restOfLine
    rw [skipWS_white (white_of_blank hws), List.nil_append, skipWS_cons (by decide), if_pos rfl]
    rfl
  | cons c w =>
    have hc := hw c List.mem_cons_self
    have hskip : skipWS (ws ++ (c :: w ++ '\n' :: t)) = c :: (w ++ '\n' :: t) := by
      rw [skipWS_white (white_of_blank hws)]
      refine skipWS_cons ?_ _
      have hblank : ¬ IsBlank c := hstart c rfl
      unfold IsBlank at hblank
      rw [not_or] at hblank
      simp [hblank.1, hblank.2, hc.2]
    have hpass : ∀ d ∈ c :: w, (!(d == '\n')) = true := fun d hd => by simpa using (hw d hd).1
    have hstop : ∀ d ∈ ('\n' :: t).head?, (!(d == '\n')) = false := by
      rintro d ⟨⟩
      rfl
    have htaken : taken (fun d => d == '\n') (fun d => !(d == '\r')) (c :: w ++ '\n' :: t) =
        c :: w := by
      rw [taken, takeWhile_append_stop hpass hstop]
      exact List.filter_eq_self.mpr fun d hd => by simpa using (hw d hd).2
    have hrest : rest (fun d => d == '\n') (c :: w ++ '\n' :: t) = '\n' :: t :=
      dropWhile_append_stop hpass hstop
    unfold restOfLine
    rw [hskip]
    dsimp only
    rw [if_neg hc.1, ← List.cons_append, htaken, hrest, if_neg (List.cons_ne_nil c w),
      if_neg (List.cons_ne_nil '\n' t)]

end Text

theorem cString_eq {w : List Char} (h : ∀ c ∈ w, c ≠ '\x00') : cString w = w :=
  List.takeWhile_eq_self_iff.mpr fun c hc => by simpa using h c hc

theorem digit_ends {base : ℕ} (hbase : base ≤ 16) {c : Char} (h : IsDigit base c) :
    endsString c = false ∧ c ≠ '\x00' := by
  have hval : digitVal c < 36 := Nat.lt_of_lt_of_le h (by omega)
  refine ⟨?_, ?_⟩
  · unfold endsString
    rw [List.contains_eq_any_beq, List.any_eq_false]
    intro d hd heq
    obtain rfl := eq_of_beq heq
    simp only [List.mem_cons, List.not_mem_nil, or_false] at hd
    rcases hd with rfl | rfl | rfl | rfl | rfl | rfl | rfl | rfl | rfl | rfl <;>
      exact absurd hval (by decide)
  · rintro rfl
    exact absurd hval (by decide)

theorem ofDigits_foldl (base : ℕ) (ds : List Char) (n : ℕ) :
    ds.foldl (fun val c => val * BitVec.ofNat 64 base + BitVec.ofNat 64 (digitVal c))
      (BitVec.ofNat 64 n) =
      BitVec.ofNat 64 (ds.foldl (fun n c => base * n + digitVal c) n) := by
  induction ds generalizing n with
  | nil => rfl
  | cons d ds ih =>
    rw [List.foldl_cons, List.foldl_cons, ← ih, ← BitVec.ofNat_mul, ← BitVec.ofNat_add,
      Nat.mul_comm]

theorem isStringAHexNumber_numeral (n : Numeral 16) :
    isStringAHexNumber n.digits = some (BitVec.ofNat 64 n.value) := by
  rw [isStringAHexNumber, if_pos n.isDigit]
  exact congrArg some (ofDigits_foldl 16 n.digits 0)

theorem isStringADecNumber_numeral (n : Numeral 10) :
    isStringADecNumber n.digits = some (BitVec.ofNat 64 n.value) := by
  rw [isStringADecNumber, if_pos n.isDigit]
  exact congrArg some (ofDigits_foldl 10 n.digits 0)

theorem isStringAHexNumber_none {w : List Char} (h : ∃ c ∈ w, ¬ IsDigit 16 c) :
    isStringAHexNumber w = none := by
  obtain ⟨c, hc, hnot⟩ := h
  exact if_neg fun hall => hnot (hall c hc)

namespace Parser

variable {α β : Type} {ws w t u : List Char} {c : Char} {P Q : Prop} (room : ℕ)

/-! ### What is read -/

/-- The program reads the text up to `u`, and all that it writes to its arrays fits exactly if
`fits` holds. -/
structure Reads (d : Parser α) (t : List Char) (a : α) (u : List Char) (fits : Prop) : Prop where
  run : d.run Text.answer t = .ok a u
  notes : (∀ w ∈ d.notes Text.answer t, w.1.Fits) ↔ fits

namespace Reads

variable {d : Parser α} {f : α → Parser β} {a : α} {b : β} {t' : List Char}

theorem pure (a : α) (t : List Char) : Reads (pure a) t a t True := ⟨rfl, iff_of_true nofun trivial⟩

theorem write (w : Note) (t : List Char) : Reads (write w) t () t w.Fits :=
  ⟨rfl, List.forall_mem_singleton⟩

theorem congr (hd : Reads d t a u P) (h : P ↔ Q) : Reads d t a u Q := ⟨hd.run, hd.notes.trans h⟩

theorem bind (hd : Reads d t a u P) (hf : Reads (f a) u b t' Q) :
    Reads (d >>= f) t b t' (P ∧ Q) := by
  refine ⟨(run_bind_ok hd.run).trans hf.run, ?_⟩
  rw [notes_bind, hd.run, List.forall_mem_append, hd.notes, hf.notes]

theorem step (hd : Reads d t a u True) (hf : Reads (f a) u b t' Q) : Reads (d >>= f) t b t' Q :=
  (hd.bind hf).congr (and_iff_right trivial)

theorem last (hd : Reads d t a u P) (hf : Reads (f a) u b t' True) : Reads (d >>= f) t b t' P :=
  (hd.bind hf).congr (and_iff_left trivial)

end Reads

/-- The first program, on the first text, does something and goes on as the second on the second
text; what it writes before that fits exactly if `fits` holds. -/
structure Goes (d : Parser α) (t : List Char) (d' : Parser α) (t' : List Char) (fits : Prop) :
    Prop where
  run : d.run Text.answer t = d'.run Text.answer t'
  notes : ∃ ws, d.notes Text.answer t = ws ++ d'.notes Text.answer t' ∧
    ((∀ w ∈ ws, w.1.Fits) ↔ fits)
  suffix : t' <:+ t

namespace Goes

variable {d d' d'' : Parser α} {t' t'' : List Char} {a : α}

theorem refl (d : Parser α) (t : List Char) : Goes d t d t True :=
  ⟨rfl, ⟨[], rfl, iff_of_true nofun trivial⟩, List.suffix_refl t⟩

theorem trans (h : Goes d t d' t' P) (h' : Goes d' t' d'' t'' Q) : Goes d t d'' t'' (P ∧ Q) := by
  obtain ⟨ws, hws, hP⟩ := h.notes
  obtain ⟨ws', hws', hQ⟩ := h'.notes
  refine ⟨h.run.trans h'.run, ⟨ws ++ ws', ?_, by rw [List.forall_mem_append, hP, hQ]⟩,
    h'.suffix.trans h.suffix⟩
  rw [hws, hws', List.append_assoc]

theorem congr (h : Goes d t d' t' P) (hiff : P ↔ Q) : Goes d t d' t' Q := by
  obtain ⟨ws, hws, hP⟩ := h.notes
  exact ⟨h.run, ⟨ws, hws, hP.trans hiff⟩, h.suffix⟩

theorem reads (h : Goes d t d' t' P) (h' : Reads d' t' a u Q) : Reads d t a u (P ∧ Q) := by
  obtain ⟨ws, hws, hP⟩ := h.notes
  exact ⟨h.run.trans h'.run, by rw [hws, List.forall_mem_append, hP, h'.notes]⟩

theorem bind (h : Goes d t d' t' P) (f : α → Parser β) : Goes (d >>= f) t (d' >>= f) t' P := by
  obtain ⟨ws, hws, hP⟩ := h.notes
  refine ⟨by rw [run_bind, run_bind, h.run], ⟨ws, ?_, hP⟩, h.suffix⟩
  rw [notes_bind, notes_bind, hws, h.run, List.append_assoc]

end Goes

theorem Reads.goes {d : Parser α} {a : α} (h : Reads d t a u P) (f : α → Parser β) :
    Goes (d >>= f) t (f a) u P :=
  ⟨run_bind_ok h.run, ⟨_, by rw [notes_bind, h.run], h.notes⟩, run_suffix h.run⟩

theorem Reads.goesOn {d : Parser α} {f : α → Parser β} {d' : Parser β} {t' : List Char} {a : α}
    (h : Reads d t a u True)
    (h' : Goes (f a) u d' t' P) : Goes (d >>= f) t d' t' P :=
  ((h.goes f).trans h').congr (and_iff_right trivial)

/-! ### Reading tokens -/

theorem isBlank_singleton : ∀ c ∈ ([' '] : List Char), IsBlank c :=
  List.forall_mem_singleton.mpr (.inl rfl)

theorem blanks_lex_word (hws : ∀ c ∈ ws, IsBlank c) (hw : Name w)
    (ht : ∀ c ∈ t.head?, endsString c = true) :
    Reads (getNextLex room) (ws ++ (w ++ t)) (.string, w) t (w.length < room) := by
  have hlex := Text.nextLex_word (Text.white_of_blank hws) hw.ne (fun c hc => (hw.plain c hc).1) ht
  constructor
  · change EStateM.Result.ok ((Text.nextLex _).1, cString (Text.nextLex _).2.1)
      (Text.nextLex _).2.2 = _
    rw [hlex, cString_eq fun c hc => (hw.plain c hc).2]
  · change (∀ x ∈ [(Note.lex room (Text.nextLex _).2.1, (Text.nextLex _).2.2)], _) ↔ _
    rw [hlex]
    exact List.forall_mem_singleton

theorem lex_word (hw : Name w) (ht : ∀ c ∈ t.head?, endsString c = true) :
    Reads (getNextLex room) (w ++ t) (.string, w) t (w.length < room) :=
  @blanks_lex_word [] w t room nofun hw ht

theorem white_lex_char {token : ObjDumpTokenType} (hroom : 0 < room) (hws : ∀ c ∈ ws, IsWhite c)
    (h : charToken c = some token) (hc : (c == ' ' || c == '\r' || c == '\t') = false) :
    Reads (getNextLex room) (ws ++ c :: t) (token, []) t True := by
  have hlex : Text.nextLex (ws ++ c :: t) = (token, [], t) :=
    (Text.nextLex_white hws _).trans (Text.nextLex_char h hc t)
  constructor
  · change EStateM.Result.ok ((Text.nextLex _).1, cString (Text.nextLex _).2.1)
      (Text.nextLex _).2.2 = _
    rw [hlex]
    rfl
  · change (∀ x ∈ [(Note.lex room (Text.nextLex _).2.1, (Text.nextLex _).2.2)], _) ↔ _
    rw [hlex]
    exact iff_of_true (List.forall_mem_singleton.mpr hroom) trivial

theorem blanks_lex_char {token : ObjDumpTokenType} (hroom : 0 < room) (hws : ∀ c ∈ ws, IsBlank c)
    (h : charToken c = some token) (hc : (c == ' ' || c == '\r' || c == '\t') = false) :
    Reads (getNextLex room) (ws ++ c :: t) (token, []) t True :=
  white_lex_char room hroom (Text.white_of_blank hws) h hc

theorem lex_char {token : ObjDumpTokenType} (hroom : 0 < room) (h : charToken c = some token)
    (hc : (c == ' ' || c == '\r' || c == '\t') = false) :
    Reads (getNextLex room) (c :: t) (token, []) t True :=
  @blanks_lex_char [] t c room token hroom nofun h hc

theorem blanks_expect_word (hws : ∀ c ∈ ws, IsBlank c) (hw : Name w)
    (ht : ∀ c ∈ t.head?, endsString c = true) :
    Reads (expect room .string) (ws ++ (w ++ t)) w t (w.length < room) :=
  (blanks_lex_word room hws hw ht).last (.pure w t)

theorem expect_word (hw : Name w) (ht : ∀ c ∈ t.head?, endsString c = true) :
    Reads (expect room .string) (w ++ t) w t (w.length < room) :=
  @blanks_expect_word [] w t room nofun hw ht

theorem white_expect_char {token : ObjDumpTokenType} (hroom : 0 < room) (hws : ∀ c ∈ ws, IsWhite c)
    (h : charToken c = some token) (hc : (c == ' ' || c == '\r' || c == '\t') = false) :
    Reads (expect room token) (ws ++ c :: t) [] t True := by
  refine (white_lex_char room hroom hws h hc).step ?_
  rw [if_pos rfl]
  exact .pure [] t

theorem expect_char {token : ObjDumpTokenType} (hroom : 0 < room) (h : charToken c = some token)
    (hc : (c == ' ' || c == '\r' || c == '\t') = false) :
    Reads (expect room token) (c :: t) [] t True :=
  @white_expect_char [] t c room token hroom nofun h hc

theorem name_digits {base : ℕ} (hbase : base ≤ 16) (n : Numeral base) : Name n.digits :=
  ⟨n.digits_ne, fun c hc => digit_ends hbase (n.isDigit c hc)⟩

theorem blanks_expect_digits {base : ℕ} (hbase : base ≤ 16) (n : Numeral base)
    (hws : ∀ c ∈ ws, IsBlank c) (ht : ∀ c ∈ t.head?, endsString c = true) :
    Reads (expect room .string) (ws ++ (n.digits ++ t)) n.digits t (n.digits.length < room) :=
  blanks_expect_word room hws (name_digits hbase n) ht

theorem blanks_decNumber (n : Numeral 10) (hws : ∀ c ∈ ws, IsBlank c)
    (ht : ∀ c ∈ t.head?, endsString c = true) :
    Reads (decNumber room) (ws ++ (n.digits ++ t)) (BitVec.ofNat 64 n.value) t
      (n.digits.length < room) := by
  refine (blanks_expect_digits room (by decide) n hws ht).last ?_
  rw [isStringADecNumber_numeral]
  exact .pure _ t

theorem decNumber_digits (n : Numeral 10) (ht : ∀ c ∈ t.head?, endsString c = true) :
    Reads (decNumber room) (n.digits ++ t) (BitVec.ofNat 64 n.value) t (n.digits.length < room) :=
  @blanks_decNumber [] t room n nofun ht

theorem blanks_hexNumber (n : Numeral 16) (hws : ∀ c ∈ ws, IsBlank c)
    (ht : ∀ c ∈ t.head?, endsString c = true) :
    Reads (hexNumber room) (ws ++ (n.digits ++ t)) (BitVec.ofNat 64 n.value) t
      (n.digits.length < room) := by
  refine (blanks_expect_digits room le_rfl n hws ht).last ?_
  rw [isStringAHexNumber_numeral]
  exact .pure _ t

theorem blanks_keyword (hws : ∀ c ∈ ws, IsBlank c) (hw : Name w)
    (ht : ∀ c ∈ t.head?, endsString c = true) :
    Reads (keyword room w) (ws ++ (w ++ t)) () t (w.length < room) := by
  refine (blanks_expect_word room hws hw ht).last ?_
  rw [if_pos (show strcasecmp w w = true by simp [strcasecmp])]
  exact .pure () t

theorem endOfLine_eol (t : List Char) : Reads (endOfLine .eol) t () t True := .pure () t

/-! ### The parts of a line behind its first token -/

section

variable (rest : List Char)

theorem head_discriminatorText (d : Option (Numeral 10)) :
    ∀ c ∈ (discriminatorText d ++ '\n' :: rest).head?, endsString c = true := by
  cases d with
  | none =>
    rintro c ⟨⟩
    rfl
  | some n =>
    rintro c ⟨⟩
    rfl

/-- Up to the end of the line, with or without a discriminator. -/
theorem discriminator_reads (d : Option (Numeral 10)) :
    ∃ r t, Reads (getNextLex 256) (discriminatorText d ++ '\n' :: rest) r t True ∧
      Reads (pathDiscriminator r.1) t .eol rest (∀ n ∈ d, n.digits.length < 256) ∧
      Reads (lineDiscriminator r.1) t .eol rest (∀ n ∈ d, n.digits.length < 256) := by
  have hzero : 0 < 256 := by decide
  cases d with
  | none =>
    have hnone : True ↔ ∀ n ∈ (none : Option (Numeral 10)), n.digits.length < 256 :=
      iff_of_true trivial nofun
    exact ⟨_, _, lex_char 256 hzero rfl rfl, (Reads.pure _ _).congr hnone, (Reads.pure _ _).congr
      hnone⟩
  | some n =>
    have htext : discriminatorText (some n) ++ '\n' :: rest =
        [' '] ++ '(' :: ("discriminator".toList ++
          ([' '] ++ (n.digits ++ ')' :: '\n' :: rest))) := by
      simp [discriminatorText]
    have hword : Name "discriminator".toList := ⟨by decide, by decide⟩
    have hshort : True ↔ "discriminator".toList.length < 256 := iff_of_true trivial (by decide)
    have hsome : n.digits.length < 256 ↔ ∀ m ∈ some n, m.digits.length < 256 :=
      ⟨fun h m hm => Option.some.inj hm ▸ h, fun h => h n rfl⟩
    have hdigits : ∀ c ∈ (')' :: '\n' :: rest).head?, endsString c = true := by
      rintro c ⟨⟩
      rfl
    have hrp : Reads (expect 256 .rp) (')' :: '\n' :: rest) [] ('\n' :: rest) True :=
      expect_char 256 hzero rfl rfl
    have heol : Reads (getNextLex 256) ('\n' :: rest) (.eol, []) rest True :=
      lex_char 256 hzero rfl rfl
    rw [htext]
    refine ⟨_, _, blanks_lex_char 256 hzero isBlank_singleton rfl rfl, ?_, ?_⟩
    · rw [pathDiscriminator, if_pos rfl]
      exact ((expect_word 256 hword (by rintro c ⟨⟩; rfl)).congr hshort.symm).step
        (((blanks_expect_digits 256 (by decide) n isBlank_singleton hdigits).congr hsome).last
          (hrp.step (heol.step (.pure _ _))))
    · rw [lineDiscriminator, if_pos rfl]
      have hkeyword :=
        (@blanks_keyword [] _ ([' '] ++ (n.digits ++ ')' :: '\n' :: rest)) 256 nofun hword
          (by rintro c ⟨⟩; rfl)).congr hshort.symm
      exact hkeyword.step (((blanks_decNumber 256 n isBlank_singleton hdigits).congr hsome).last
        (hrp.step (heol.step (.pure _ _))))

theorem label_reads {name : List Char} (hname : Name name) :
    Reads (parseFileOrLabelOrDisassembly 1024) (' ' :: '<' :: (name ++ '>' :: ':' :: '\n' :: rest))
      .label rest
      (name.length < 1024) := by
  have hzero : 0 < 256 := by decide
  refine (@blanks_lex_char [' '] _ '<' 256 .lt hzero isBlank_singleton rfl rfl).step ?_
  exact (expect_word 1024 hname (by rintro c ⟨⟩; rfl)).last ((expect_char 256 hzero rfl rfl).step
    ((expect_char 256 hzero rfl rfl).step ((lex_char 256 hzero rfl rfl).step
      ((endOfLine_eol rest).step (.pure _ _)))))

theorem func_reads : Reads (parseFileOrLabelOrDisassembly 1024) ('(' :: ')' :: ':' :: '\n' :: rest)
    .func rest True := by
  have hzero : 0 < 256 := by decide
  refine (lex_char 256 hzero rfl rfl).step ?_
  refine (expect_char 256 hzero rfl rfl).step ((expect_char 256 hzero rfl rfl).step
    ((lex_char 256 hzero rfl rfl).step ?_))
  exact (endOfLine_eol rest).step (.pure LineT.func rest)

def pathThen (l : SourceLine) : List Char :=
  ':' :: (l.path ++ ':' :: (l.line.digits ++ (discriminatorText l.discriminator ++ '\n' :: rest)))

theorem path_reads {l : SourceLine} (hl : l.Legible) (hdrive : l.drive ≠ none) :
    Reads (parseFileOrLabelOrDisassembly 1024) (pathThen rest l)
      (.path l.path (BitVec.ofNat 32 l.line.value)) rest (l.path.length < 1024 ∧ l.NumbersFit) := by
  have hzero : 0 < 256 := by decide
  obtain ⟨r, t, hlex, hdisc, -⟩ := discriminator_reads rest l.discriminator
  set text := discriminatorText l.discriminator ++ '\n' :: rest with htext
  have hline : Reads (pathLine 1024 l.path) (l.line.digits ++ text)
      (l.path, BitVec.ofNat 64 l.line.value) text (l.line.digits.length < 256) := by
    refine (@blanks_expect_digits [] text 256 10 (by decide) l.line nofun
      (head_discriminatorText rest _)).last ?_
    rw [isStringADecNumber_numeral]
    exact .pure _ _
  have hvalue : (BitVec.ofNat 64 l.line.value).setWidth 32 = BitVec.ofNat 32 l.line.value :=
    BitVec.setWidth_ofNat_of_le (by decide) _
  refine (lex_char 256 hzero rfl rfl).step ?_
  refine (expect_word 1024 hl.name (by rintro c ⟨⟩; rfl)).bind ?_
  rw [isStringAHexNumber_none (hl.not_number hdrive), ← hvalue]
  exact (expect_char 256 hzero rfl rfl).step
    (hline.bind (hlex.step (hdisc.last ((endOfLine_eol rest).step (.pure _ _)))))

theorem parseFileLine_reads (l : SourceLine) :
    Reads parseFileLine
      (':' :: (l.line.digits ++ (discriminatorText l.discriminator ++ '\n' :: rest)))
      (BitVec.ofNat 32 l.line.value) rest (l.NumbersFit) := by
  obtain ⟨r, t, hlex, -, hdisc⟩ := discriminator_reads rest l.discriminator
  have hvalue : (BitVec.ofNat 64 l.line.value).setWidth 32 = BitVec.ofNat 32 l.line.value :=
    BitVec.setWidth_ofNat_of_le (by decide) _
  rw [← hvalue]
  exact (expect_char 256 (by decide) rfl rfl).step
    ((decNumber_digits 256 l.line (head_discriminatorText rest _)).bind
      (hlex.step (hdisc.last ((endOfLine_eol rest).step (.pure _ _)))))

/-- What is left of the line of an instruction: its end, if there was a text. -/
def restThen (l : InstLine) : List Char := if l.text = [] then rest else '\n' :: rest

theorem diss_reads (l : InstLine) :
    Reads (parseFileOrLabelOrDisassembly 1024)
      (':' :: (l.gap ++ (l.encoding.digits ++ (l.tab ++ (l.text ++ '\n' :: rest)))))
      (.diss l.text (if l.encoding.digits.length = 4 then 16 else 32) l.value) (restThen rest l)
      (l.text.length < 1024) := by
  have hgap : ∀ c ∈ l.gap, IsBlank c := fun c hc => l.blanks c (by simp [hc])
  have htab : ∀ c ∈ l.tab, IsBlank c := fun c hc => l.blanks c (by simp [hc])
  have hends : ∀ c ∈ (l.tab ++ (l.text ++ '\n' :: rest)).head?, endsString c = true := by
    cases htab' : l.tab with
    | nil =>
      have htext : l.text = [] := by
        by_contra hne
        exact l.apart hne htab'
      rw [htext]
      rintro c ⟨⟩
      rfl
    | cons c tab =>
      rintro d ⟨⟩
      rcases htab c (by rw [htab']; exact List.mem_cons_self) with rfl | rfl <;> rfl
  have hline := Text.restOfLine_text htab l.text_start
    (fun c hc => ⟨(l.text_chars c hc).1, (l.text_chars c hc).2.1⟩) rest
  have hrest : Reads (getRestOfLine 1024) (l.tab ++ (l.text ++ '\n' :: rest)) (.eol, l.text)
      (restThen rest l) (l.text.length < 1024) := by
    constructor
    · change EStateM.Result.ok ((Text.restOfLine _).1, cString (Text.restOfLine _).2.1)
        (Text.restOfLine _).2.2 = _
      rw [hline, cString_eq fun c hc => (l.text_chars c hc).2.2]
      rfl
    · change (∀ x ∈ [(Note.lex 1024 (Text.restOfLine _).2.1, (Text.restOfLine _).2.2)], _) ↔ _
      rw [hline]
      exact List.forall_mem_singleton
  have hshort : l.encoding.digits.length < 1024 ↔ True :=
    iff_of_true (by rcases l.size with h | h <;> omega) trivial
  have hvalue : (BitVec.ofNat 64 l.encoding.value).setWidth 32 = l.value :=
    BitVec.setWidth_ofNat_of_le (by decide) _
  refine (lex_char 256 (by decide) rfl rfl).step
    (((blanks_expect_digits 1024 le_rfl l.encoding hgap hends).congr hshort).step ?_)
  rw [isStringAHexNumber_numeral, ← hvalue]
  dsimp only
  rw [if_pos l.size]
  exact hrest.last ((endOfLine_eol _).step (.pure _ _))

end

end Parser

end ObjDump

end TraceDecoder
