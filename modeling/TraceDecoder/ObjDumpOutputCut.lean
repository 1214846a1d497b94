import TraceDecoder.ObjDumpOutputRuns

/-!
# Outputs that are cut off

Where the last listing of an output is cut off in a line with the file name `<unknown>`, the parser
does not return; of all other texts it does.
-/

namespace TraceDecoder

open CString Dialogue

namespace ObjDump

namespace Parser

variable {α β : Type} {wide : Bool} {vmaOffset startAddr endAddr : ADDRESS} {t t' u : List Char}
    {P : Prop} (o : Output) (e : ElfData)

/-! ### Programs that get stuck -/

def Sticking (d : ℕ → Parser α) (t : List Char) : Prop :=
  ∃ n, ∀ k, n ≤ k → ∃ w ∈ (d k).notes Text.answer t, Stuck w

theorem Goes.sticks {d d' : Parser α} (h : Goes d t d' t' P)
    (h' : ∃ w ∈ d'.notes Text.answer t', Stuck w) :
    ∃ w ∈ d.notes Text.answer t, Stuck w := by
  obtain ⟨ws, hws, -⟩ := h.notes
  obtain ⟨w, hw, hstuck⟩ := h'
  exact ⟨w, hws ▸ List.mem_append_right ws hw, hstuck⟩

theorem sticks_after {d : Parser α} {f : α → Parser β} {a : α}
    (hrun : d.run Text.answer t = .ok a u)
    (h : ∃ w ∈ (f a).notes Text.answer u, Stuck w) :
    ∃ w ∈ (d >>= f).notes Text.answer t, Stuck w := by
  obtain ⟨w, hw, hstuck⟩ := h
  rw [notes_bind, hrun]
  exact ⟨w, List.mem_append_right _ hw, hstuck⟩

theorem sticks_bind {d : Parser α} (f : α → Parser β) (h : ∃ w ∈ d.notes Text.answer t, Stuck w) :
    ∃ w ∈ (d >>= f).notes Text.answer t, Stuck w := by
  obtain ⟨w, hw, hstuck⟩ := h
  rw [notes_bind]
  exact ⟨w, List.mem_append_left _ hw, hstuck⟩

namespace Sticking

variable {d d' : ℕ → Parser α}

theorem of_going (h : Going d t d' t' P) (h' : Sticking d' t') : Sticking d t := by
  obtain ⟨n, hn⟩ := h
  obtain ⟨n', hn'⟩ := h'
  refine ⟨n' + n, fun k hk => ?_⟩
  obtain ⟨k', hk', hgoes⟩ := hn n' k hk
  exact hgoes.sticks (hn' k' hk')

theorem bind (h : Sticking d t) (f : ℕ → α → Parser β) : Sticking (fun k => d k >>= f k) t := by
  obtain ⟨n, hn⟩ := h
  exact ⟨n, fun k hk => sticks_bind (f k) (hn k hk)⟩

theorem succ (h : Sticking (fun k => d (k + 1)) t) : Sticking d t := by
  obtain ⟨n, hn⟩ := h
  refine ⟨n + 1, fun k hk => ?_⟩
  obtain ⟨k, rfl⟩ : ∃ i, k = i + 1 := ⟨k - 1, by omega⟩
  exact hn k (by omega)

theorem ite_pos {c : Prop} [Decidable c] (hc : c) (h : Sticking d t) :
    Sticking (fun k => if c then d k else d' k) t := by
  simpa only [if_pos hc] using h

theorem ite_neg {c : Prop} [Decidable c] (hc : ¬ c) (h : Sticking d' t) :
    Sticking (fun k => if c then d k else d' k) t := by
  simpa only [if_neg hc] using h

end Sticking

/-- What stands in a line behind the file name `<unknown>` is skipped. -/
theorem sticks_unknownFile {mark rest : List Char} (hmark : UnknownMark mark) (hrest : '\n' ∉ rest)
    (k : ℕ) :
    ∃ w ∈ (unknownFile k).notes Text.answer (mark ++ rest), Stuck w := by
  obtain ⟨ws₁, word, ws₂, ws₃, rfl, hws, hword, hname⟩ := hmark.split
  obtain ⟨⟨hws₁, hws₂⟩, hws₃⟩ : ((∀ c ∈ ws₁, IsWhite c) ∧ ∀ c ∈ ws₂, IsWhite c) ∧ ∀ c ∈ ws₃,
      IsWhite c := by
    simpa only [List.forall_mem_append] using hws
  have hne : word ≠ [] := fun h => by
    rw [h] at hname
    exact absurd hname (by decide)
  have hgt : ∀ c ∈ (ws₂ ++ '>' :: (ws₃ ++ ':' :: rest)).head?, endsString c = true := by
    cases ws₂ with
    | nil => exact ends_of_char rfl _
    | cons c ws₂ =>
      rintro d ⟨⟩
      rcases hws₂ c List.mem_cons_self with rfl | rfl | rfl <;> rfl
  have htext : ws₁ ++ (word ++ (ws₂ ++ '>' :: (ws₃ ++ [':']))) ++ rest =
      ws₁ ++ (word ++ (ws₂ ++ '>' :: (ws₃ ++ ':' :: rest))) := by
    simp only [List.append_assoc, List.cons_append, List.nil_append]
  have hlex : (getNextLex 1024).run Text.answer
      (ws₁ ++ (word ++ (ws₂ ++ '>' :: (ws₃ ++ ':' :: rest)))) = .ok (.string, "unknown".toList)
        (ws₂ ++ '>' :: (ws₃ ++ ':' :: rest)) := by
    change EStateM.Result.ok ((Text.nextLex _).1, cString (Text.nextLex _).2.1)
      (Text.nextLex _).2.2 = _
    rw [Text.nextLex_word hws₁ hne hword hgt, hname]
  have hexpect : (expect 1024 .string).run Text.answer
      (ws₁ ++ (word ++ (ws₂ ++ '>' :: (ws₃ ++ ':' :: rest)))) = .ok "unknown".toList
        (ws₂ ++ '>' :: (ws₃ ++ ':' :: rest)) := run_bind_ok hlex
  have hclose : Reads (expect 1024 .gt) (ws₂ ++ '>' :: (ws₃ ++ ':' :: rest)) [] (ws₃ ++ ':' :: rest)
      True :=
    white_expect_char 1024 (by decide) hws₂ rfl rfl
  have hcolon : Reads (getNextLex 1024) (ws₃ ++ ':' :: rest) (.colon, []) rest True :=
    white_lex_char 1024 (by decide) hws₃ rfl rfl
  rw [htext, unknownFile]
  refine sticks_after hexpect ?_
  rw [if_pos rfl]
  refine sticks_after hclose.run (sticks_after hcolon.run ?_)
  exact ⟨(.scoot, rest), List.mem_cons_self, rfl, hrest⟩

/-- The loop over the lines comes to a line that begins so. -/
theorem sticking_listing (s : Listing) {lines : List ListingLine} (hread : Legible true lines)
    {line : List Char} (hline : '\n' ∉ line) (hbegins : BeginsUnknown line) :
    Sticking (fun k => listing k s (.eol, [])) (listingText line lines) := by
  obtain ⟨ws, mark, rest, rfl, hws, hmark⟩ := hbegins
  have hrest : '\n' ∉ rest := fun hmem => hline (by simp [hmem])
  obtain ⟨eol', n, hn⟩ := leads_listing (ws ++ '<' :: (mark ++ rest)) hread s
  refine ⟨n + 3, fun k hk => ?_⟩
  obtain ⟨k, rfl⟩ : ∃ i, k = i + 2 := ⟨k - 2, by omega⟩
  obtain ⟨j', k', hj', hk', hgoes⟩ := hn 1 k (k + 1) (by omega) (by omega)
  obtain ⟨j', rfl⟩ : ∃ i, j' = i + 1 := ⟨j' - 1, by omega⟩
  have hlt : Reads (getNextLex 1024) (ws ++ '<' :: (mark ++ rest)) (.lt, []) (mark ++ rest) True :=
    white_lex_char 1024 (by decide) hws rfl rfl
  have hskip : skipEols 1024 (j' + 1) eol' (.lt, []) = pure (eol', .lt, []) := if_neg nofun
  have hresume : ∃ w ∈ (resume (j' + 1) k' eol' (lines.foldl Listing.enter s)).notes Text.answer
      (ws ++ '<' :: (mark ++ rest)), Stuck w := by
    refine sticks_after hlt.run ?_
    rw [hskip]
    exact sticks_after rfl (sticks_bind _ (sticks_unknownFile hmark hrest k'))
  have hlisting := hgoes.sticks hresume
  dsimp only
  rw [listing_succ, skipEols, if_pos rfl, Dialogue.bind_assoc]
  exact hlisting

theorem sticking_disassembly (d : Disassembly) {lst : List Section}
    (hname : d.name ∈ lst.map Section.name) (root : SrcFileRoot)
    {line : List Char} (hline : '\n' ∉ line) (hbegins : BeginsUnknown line) :
    Sticking (fun k => parseDisassemblyList k (formatType wide) lst root startAddr)
      (d.textThen line) := by
  obtain ⟨sp, hsp⟩ := getSectionByName_of_mem hname
  have hfound : Section.getSectionByName (sectionKey (formatType wide) startAddr d.name) lst =
      some sp := by
    rw [sectionKey_formatType, hsp]
  obtain ⟨n, hn⟩ :=
    sticking_listing { sp := sp.allocate, srcFileRoot := root } d.legible hline hbegins
  exact ⟨n, fun k hk => (header_goes d.plain formatType_ne hfound k _).sticks
    (sticks_bind _ (hn k hk))⟩

theorem sticking_tables (d : Disassembly) (more : List Disassembly) (e : ElfData)
    (hlisted : ∀ d' ∈ d :: more, d'.name ∈ e.codeSectionLst.map Section.name) {line : List Char}
    (hline : '\n' ∉ line) (hbegins : BeginsUnknown line) :
    Sticking (fun k => tables (formatType wide) vmaOffset startAddr k e
        (.string, "Disassembly".toList))
      (Disassembly.allText line d more) := by
  have hstring : ¬ ObjDumpTokenType.string ≠ .string := fun h => h rfl
  induction more generalizing d e with
  | nil =>
    exact .succ (.ite_neg hstring (.ite_pos isTable_disassembly
      ((sticking_disassembly d (hlisted d List.mem_cons_self) e.srcFileRoot hline hbegins).bind _)))
  | cons d' more ih =>
    obtain ⟨hd, hmore⟩ := List.forall_mem_cons.mp hlisted
    obtain ⟨lst, root, hnames, hread⟩ :=
      @reading_disassembly wide (vmaOffset + startAddr) d _ hd e.srcFileRoot
        (tailListing (Disassembly.allText line d' more) (ends_allText _ _ _))
    exact .succ (.ite_neg hstring (.ite_pos isTable_disassembly (.of_going hread.going
      (ih d' { e with codeSectionLst := lst, srcFileRoot := root } (by rw [hnames]; exact hmore)))))

/-! ### The last line -/

theorem suffix_behind {s t : List Char} (a : List Char) (h : s <:+ t) : s <:+ a ++ t :=
  List.suffix_append_of_suffix h

theorem suffix_cons {s t : List Char} (c : Char) (h : s <:+ t) : s <:+ c :: t :=
  h.trans (List.suffix_cons c t)

theorem suffix_line (l : ListingLine) (rest : List Char) : '\n' :: rest <:+ l.textThen rest := by
  have hrest := List.suffix_refl ('\n' :: rest)
  cases l with
  | blank => exact hrest
  | label address name =>
    exact suffix_behind _ (suffix_cons
      _ (suffix_cons _ (suffix_behind _ (suffix_cons _ (suffix_cons _ hrest)))))
  | func name => exact suffix_behind _ (suffix_cons _ (suffix_cons _ (suffix_cons _ hrest)))
  | dots indent => exact suffix_behind _ (suffix_behind _ hrest)
  | source l =>
    exact suffix_behind _ (suffix_behind
      _ (suffix_cons _ (suffix_behind _ (suffix_behind _ hrest))))
  | inst l =>
    exact suffix_behind _ (suffix_behind
      _ (suffix_cons _ (suffix_behind
        _ (suffix_behind _ (suffix_behind _ (suffix_behind _ hrest))))))

theorem suffix_listing (lines : List ListingLine) (line : List Char) :
    '\n' :: line <:+ '\n' :: listingText line lines := by
  induction lines with
  | nil => exact List.suffix_refl _
  | cons l lines ih => exact suffix_cons _ (ih.trans (suffix_line l _))

theorem suffix_disassembly (d : Disassembly) (line : List Char) :
    '\n' :: line <:+ d.textThen line :=
  suffix_behind _ (suffix_behind
    _ (suffix_behind _ (suffix_behind
      _ (suffix_behind _ (suffix_behind _ (suffix_cons _ (suffix_listing d.lines line)))))))

theorem suffix_allText (d : Disassembly) (more : List Disassembly) (line : List Char) :
    '\n' :: line <:+ Disassembly.allText line d more := by
  induction more generalizing d with
  | nil => exact suffix_disassembly d line
  | cons d' more ih =>
    have hrest : '\n' :: line <:+ "Disassembly".toList ++ Disassembly.allText line d' more :=
      suffix_behind _ (ih d')
    have hd :=
      suffix_disassembly d ('\n' :: ("Disassembly".toList ++ Disassembly.allText line d' more))
    rw [Disassembly.allText]
    exact (suffix_cons '\n' (suffix_cons '\n' hrest)).trans hd

theorem eq_of_last_line {front line front' line' : List Char}
    (h : front ++ '\n' :: line = front' ++ '\n' :: line')
    (hline : '\n' ∉ line) (hline' : '\n' ∉ line') : line = line' := by
  have htake {front line : List Char} (hline : '\n' ∉ line) :
      (front ++ '\n' :: line).reverse.takeWhile (fun c => !(c == '\n')) = line.reverse := by
    rw [List.reverse_append, List.reverse_cons, List.append_assoc]
    refine takeWhile_append_stop (fun c hc => ?_) (by rintro c ⟨⟩; rfl)
    have hne : c ≠ '\n' := fun heq => hline (heq ▸ List.mem_reverse.mp hc)
    simpa using hne
  exact List.reverse_inj.mp ((htake hline).symm.trans ((congrArg _ (congrArg _ h)).trans
    (htake hline')))

/-! ### The results -/

/-- The output up to some point behind the first line of one of its listings, where it is cut off in
the given line. -/
def CutOff (t : List Char) : Prop :=
  ∃ (o : Output) (line : List Char), '\n' ∉ line ∧ t = o.textThen line

theorem sticking_output {line : List Char} (hline : '\n' ∉ line) (hbegins : BeginsUnknown line) :
    Sticking (fun k => parseObjDump k e vmaOffset startAddr endAddr) (o.textThen line) := by
  obtain ⟨e', hlisted, hgoing⟩ := @going_output vmaOffset startAddr endAddr o e line
  exact .of_going hgoing ((sticking_tables o.first o.more e' hlisted hline hbegins).bind
    fun _ => finish e)

/-- Where such a text ends in a line of an unknown file, the line is the one
in which it is cut off. -/
theorem cutInUnknown_iff {line : List Char} (hline : '\n' ∉ line) :
    CutInUnknown (o.textThen line) ↔ BeginsUnknown line := by
  obtain ⟨_, -, hgoing⟩ := @going_output 0 0 0 o ⟨0, [], [], ⟨[]⟩⟩ line
  obtain ⟨front, htext⟩ := (suffix_allText o.first o.more line).trans hgoing.suffix
  constructor
  · rintro ⟨front', line', htext', hline', hbegins⟩
    rw [eq_of_last_line (htext.trans htext') hline hline']
    exact hbegins
  · exact fun hbegins => ⟨front, line, htext.symm, hline, hbegins⟩

end Parser

end ObjDump

end TraceDecoder
