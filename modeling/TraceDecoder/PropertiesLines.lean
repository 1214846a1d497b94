import TraceDecoder.PropertiesCalls

/-!
# The properties of a file

The constructor splits a file into lines; the calls then hand out the properties of the lines, one
after the other.
-/

namespace TraceDecoder

namespace PropertiesParser

variable {p : PropertiesParser} {l : PropertiesLine} {text : List Char}

/-! ### The first call -/

/-- The lines of a file from index `i` on. -/
def entries : ℕ → List (List Char) → List (PropertiesLine × List Char)
  | _, [] => []
  | i, text :: texts => (⟨i, none, none⟩, upToReturn text) :: entries (i + text.length + 1) texts

theorem entries_texts (i : ℕ) (texts : List (List Char)) : (entries i texts).map Prod.snd =
    texts.map upToReturn := by
  induction texts generalizing i with
  | nil => rfl
  | cons text texts ih => rw [entries, List.map_cons, List.map_cons, ih]

theorem countLines_eq (f : List Char) : countLines f = (textLines f).length := by
  induction f with
  | nil => rfl
  | cons c f ih =>
    rw [countLines, ih, textLines]
    by_cases hc : c = '\n'
    · rw [if_pos hc, if_pos hc, List.length_cons, Nat.add_comm]
    · rw [if_neg hc, if_neg hc]
      cases f with
      | nil => rfl
      | cons d f =>
        rw [if_neg (List.cons_ne_nil d f), Nat.zero_add]
        cases hlines : textLines (d :: f) with
        | nil => exact absurd hlines (textLines_ne_nil (List.cons_ne_nil d f))
        | cons text texts => rfl

theorem findLines_eq (f : List Char) (i : ℕ) :
    findLines i true f = (entries i (textLines f)).map Prod.fst ∧
    findLines i false f = ((entries i (textLines f)).map Prod.fst).tail := by
  induction f generalizing i with
  | nil => exact ⟨rfl, rfl⟩
  | cons c f ih =>
    obtain ⟨htrue, hfalse⟩ := ih (i + 1)
    by_cases hc : c = '\n'
    · have hlines : textLines (c :: f) = [] :: textLines f := if_pos hc
      rw [hlines, findLines, findLines, decide_eq_true hc, htrue]
      exact ⟨rfl, rfl⟩
    · rw [findLines, findLines, decide_eq_false hc, hfalse]
      cases hlines : textLines f with
      | nil =>
        have hone : textLines (c :: f) = [[c]] := by rw [textLines, if_neg hc, hlines]
        rw [hone]
        exact ⟨rfl, rfl⟩
      | cons text texts =>
        rw [textLines_cons hc hlines, entries, entries, List.length_cons]
        have hnext : i + (text.length + 1) + 1 = i + 1 + text.length + 1 := by omega
        rw [hnext]
        exact ⟨rfl, rfl⟩

theorem hasString_entries {f buff : List Char} {i : ℕ}
    (hbuff : buff.drop i = f.map strip ++ ['\x00']) :
    ∀ e ∈ entries i (textLines f), HasString buff e.1.line e.2 := by
  induction f generalizing i with
  | nil => exact List.forall_mem_nil _
  | cons c f ih =>
    have hnext : buff.drop (i + 1) = f.map strip ++ ['\x00'] := by rw [← List.drop_drop, hbuff]; rfl
    have hrest := ih hnext
    by_cases hn : c = '\n'
    · have hlines : textLines (c :: f) = [] :: textLines f := if_pos hn
      rw [hlines, entries]
      refine List.forall_mem_cons.mpr ⟨⟨f.map strip ++ ['\x00'], ?_⟩, hrest⟩
      rw [hbuff, hn]
      rfl
    have hfirst : ∀ text, HasString buff (i + 1) (upToReturn text) →
        HasString buff i (upToReturn (c :: text)) := by
      rintro text ⟨more, hmore⟩
      by_cases hr : c = '\r'
      · subst hr
        exact ⟨_, hbuff⟩
      · refine ⟨more, ?_⟩
        rw [Simulator.upToReturn_cons hr hn, hbuff, List.map_cons, strip,
          if_neg (not_or.mpr ⟨hr, hn⟩), List.cons_append, ← hnext, hmore]
        rfl
    cases hlines : textLines f with
    | nil =>
      have hone : textLines (c :: f) = [[c]] := by rw [textLines, if_neg hn, hlines]
      have hf : f = [] := by_contra fun hne => textLines_ne_nil hne hlines
      rw [hone]
      refine List.forall_mem_cons.mpr ⟨hfirst [] ⟨[], ?_⟩, List.forall_mem_nil _⟩
      rw [hnext, hf]
      rfl
    | cons text texts =>
      rw [hlines, entries, List.forall_mem_cons] at hrest
      rw [textLines_cons hn hlines, entries, List.length_cons]
      have hline : i + (text.length + 1) + 1 = i + 1 + text.length + 1 := by omega
      rw [hline]
      exact List.forall_mem_cons.mpr ⟨hfirst text hrest.1, hrest.2⟩

theorem name_entries (i : ℕ) (texts : List (List Char)) :
    ∀ e ∈ entries i texts, e.1.name = none := by
  induction texts generalizing i with
  | nil => exact List.forall_mem_nil _
  | cons text texts ih => exact List.forall_mem_cons.mpr ⟨rfl, ih _⟩

theorem line_le_of_entries {i : ℕ} (texts : List (List Char)) :
    ∀ e ∈ entries i texts, i ≤ e.1.line := by
  induction texts generalizing i with
  | nil => exact List.forall_mem_nil _
  | cons text texts ih =>
    refine List.forall_mem_cons.mpr ⟨Nat.le_refl i, ?_⟩
    intro e he
    have hle := ih e he
    omega

theorem apart_entries (i : ℕ) (texts : List (List Char)) :
    ((entries i texts).map fun e => (e.1.line, e.2.length)).Pairwise fun d e => d.1 + d.2 <
      e.1 := by
  induction texts generalizing i with
  | nil => exact .nil
  | cons text texts ih =>
    refine .cons ?_ (ih _)
    intro d hd
    obtain ⟨e, he, rfl⟩ := List.mem_map.mp hd
    have hle := line_le_of_entries texts e he
    have hlength :=
      (List.takeWhile_prefix (fun c => decide (c ≠ '\r' ∧ c ≠ '\n')) (l := text)).length_le
    unfold upToReturn
    dsimp only
    omega

theorem mem_of_textLines {f : List Char} : ∀ text ∈ textLines f, ∀ c ∈ text, c ∈ f := by
  induction f with
  | nil => exact List.forall_mem_nil _
  | cons c f ih =>
    by_cases hn : c = '\n'
    · have hlines : textLines (c :: f) = [] :: textLines f := if_pos hn
      rw [hlines]
      refine List.forall_mem_cons.mpr ⟨List.forall_mem_nil _, ?_⟩
      intro text htext d hd
      exact List.mem_cons_of_mem c (ih text htext d hd)
    cases hlines : textLines f with
    | nil =>
      have hone : textLines (c :: f) = [[c]] := by rw [textLines, if_neg hn, hlines]
      rw [hone]
      intro text htext d hd
      rw [List.mem_singleton.mp htext] at hd
      rw [List.mem_singleton.mp hd]
      exact List.mem_cons_self
    | cons text texts =>
      rw [hlines] at ih
      rw [textLines_cons hn hlines]
      intro text' htext d hd
      rcases List.mem_cons.mp htext with rfl | htext
      · rcases List.mem_cons.mp hd with rfl | hd
        · exact List.mem_cons_self
        · exact List.mem_cons_of_mem c (ih text List.mem_cons_self d hd)
      · exact List.mem_cons_of_mem c (ih text' (List.mem_cons_of_mem _ htext) d hd)

theorem parses_init {file : List Char} (hnull : '\x00' ∉ file) :
    Parses (init file) [] (entries 0 (textLines file)) := by
  have hlines := (findLines_eq file 0).1
  have hlength : (findLines 0 true file).length = countLines file := by
    have hcount := congrArg List.length (entries_texts 0 (textLines file))
    rw [List.length_map, List.length_map] at hcount
    rw [hlines, List.length_map, countLines_eq, hcount]
  have hinit : init file = ⟨.ok, file.map strip ++ ['\x00'], some (findLines 0 true file), 0⟩ := by
    unfold init
    dsimp only
    rw [if_neg (not_not.mpr hlength)]
  rw [hinit]
  constructor
  · rfl
  · rw [hlines]
    rfl
  · rfl
  · exact apart_entries 0 _
  · intro e he c hc hstop
    have htext : e.2 ∈ (textLines file).map upToReturn := by
      rw [← entries_texts 0]
      exact List.mem_map_of_mem he
    obtain ⟨text, htext, heq⟩ := List.mem_map.mp htext
    rw [← heq] at hc
    have hend := List.mem_takeWhile_imp hc
    have hreturn : c ≠ '\r' ∧ c ≠ '\n' := of_decide_eq_true hend
    have hmem := mem_of_textLines text htext c ((List.takeWhile_prefix _).subset hc)
    simp only [List.mem_cons, List.not_mem_nil, or_false] at hstop
    rcases hstop with rfl | rfl | rfl
    · exact hnull hmem
    · exact hreturn.1 rfl
    · exact hreturn.2 rfl
  · exact List.forall_mem_nil _
  · intro e he
    exact ⟨name_entries 0 _ e he, hasString_entries rfl e he⟩

/-! ### The properties of a file -/

/-- The calls return the properties of the file, in order, and then the end
of the file or an error. -/
def Follows (file : List Char) : Prop :=
  (getProperties (expected (linesOf file)).length (init file)).map Prod.fst =
    some (expected (linesOf file))

def PlainLines : List (List Char) → Prop
  | [] => True
  | line :: lines => Plain line ∧ (contentOf line = .malformed ∨ PlainLines lines)

section

variable {skips : List (PropertiesLine × List Char)} {line : List Char} {lines : List (List Char)}

theorem expected_skipped (lines : List (List Char))
    (hskips : ∀ e ∈ skips, contentOf e.2 = .skipped) :
    expected (skips.map Prod.snd ++ lines) = expected lines := by
  induction skips with
  | nil => rfl
  | cons e skips ih =>
    obtain ⟨hskip, hskips⟩ := List.forall_mem_cons.mp hskips
    rw [List.map_cons, List.cons_append, expected, hskip]
    exact ih hskips

theorem plainLines_skipped (lines : List (List Char))
    (hskips : ∀ e ∈ skips, contentOf e.2 = .skipped) (hlines : ∀ e ∈ skips, InLine e.2) :
    PlainLines (skips.map Prod.snd ++ lines) ↔ PlainLines lines := by
  induction skips with
  | nil => exact Iff.rfl
  | cons e skips ih =>
    obtain ⟨hskip, hskips⟩ := List.forall_mem_cons.mp hskips
    obtain ⟨hline, hlines⟩ := List.forall_mem_cons.mp hlines
    have hplain : Plain e.2 :=
      (contentRead_eq_iff hline).mp ((contentRead_skipped_iff.mpr hskip).trans hskip.symm)
    have hnot : contentOf e.2 ≠ .malformed := by
      rw [hskip]
      exact LineContent.noConfusion
    rw [List.map_cons, List.cons_append, PlainLines, ← ih hskips hlines]
    exact ⟨fun h => h.2.resolve_left hnot, fun h => ⟨hplain, .inr h⟩⟩

theorem uncarried_skipped {column : ℕ} (hskips : ∀ e ∈ skips, contentOf e.2 = .skipped)
    (h : Uncarried column (skips.map Prod.snd ++ lines)) : ∃ column', Uncarried column' lines := by
  induction skips generalizing column with
  | nil => exact ⟨column, h⟩
  | cons e skips ih =>
    obtain ⟨hskip, hskips⟩ := List.forall_mem_cons.mp hskips
    obtain ⟨-, hrest⟩ := h
    rw [hskip] at hrest
    exact ih hskips hrest

theorem Uncarried.tail {column : ℕ} {name value : List Char}
    (hcontent : contentOf line = .property name value)
    (h : Uncarried column (line :: lines)) : Uncarried 0 lines := by
  obtain ⟨-, hrest⟩ := h
  rw [hcontent] at hrest
  exact hrest

theorem uncarried_meets {e : PropertiesLine × List Char} {es : List (PropertiesLine × List Char)}
    (h : Uncarried 0 ((skips ++ e :: es).map Prod.snd)) :
    Uncarried 0 (skips.map Prod.snd ++ [e.2]) := by
  rw [List.map_append, List.map_cons, List.append_cons] at h
  exact h.left

theorem uncarried_rest {e : PropertiesLine × List Char} {es : List (PropertiesLine × List Char)}
    {name value : List Char}
    (hskips : ∀ e ∈ skips, contentOf e.2 = .skipped)
    (hcontent : contentOf e.2 = .property name value)
    (h : Uncarried 0 ((skips ++ e :: es).map Prod.snd)) : Uncarried 0 (es.map Prod.snd) := by
  rw [List.map_append] at h
  obtain ⟨column, htail⟩ := uncarried_skipped hskips h
  exact htail.tail hcontent

theorem exists_skipped (todo : List (PropertiesLine × List Char)) :
    (∀ e ∈ todo, contentOf e.2 = .skipped) ∨
    ∃ skips e es, todo = skips ++ e :: es ∧ (∀ e ∈ skips, contentOf e.2 = .skipped) ∧
      contentOf e.2 ≠ .skipped := by
  induction todo with
  | nil => exact .inl (List.forall_mem_nil _)
  | cons e todo ih =>
    by_cases hskip : contentOf e.2 = .skipped
    · rcases ih with hall | ⟨skips, e', es, rfl, hskips, hfound⟩
      · exact .inl (List.forall_mem_cons.mpr ⟨hskip, hall⟩)
      · exact .inr ⟨e :: skips, e', es, rfl, List.forall_mem_cons.mpr ⟨hskip, hskips⟩, hfound⟩
    · exact .inr ⟨[], e, todo, rfl, List.forall_mem_nil _, hskip⟩

end

theorem getProperties_succ {n : ℕ} {r : Property} {p p' : PropertiesParser}
    (h : p.getNextProperty = some (r, p')) :
    (getProperties (n + 1) p).map Prod.fst = ((getProperties n p').map Prod.fst).map (r :: ·) := by
  rw [getProperties, h, Option.bind_some, Option.map_map, Option.map_map]
  rfl

theorem getProperties_one {r : Property} {p p' : PropertiesParser}
    (h : p.getNextProperty = some (r, p')) :
    (getProperties 1 p).map Prod.fst = some [r] := getProperties_succ h

theorem follows_run {p : PropertiesParser} {done todo : List (PropertiesLine × List Char)}
    (h : Parses p done todo) (hcarried : Uncarried 0 (todo.map Prod.snd)) :
    (getProperties (expected (todo.map Prod.snd)).length p).map Prod.fst = some
    (expected (todo.map Prod.snd)) ↔
      PlainLines (todo.map Prod.snd) := by
  induction hn : todo.length using Nat.strong_induction_on generalizing p done todo with
  | _ n ih =>
    subst hn
    rcases exists_skipped todo with hskips | ⟨skips, e, es, rfl, hskips, hfound⟩
    · have hexpected : expected (todo.map Prod.snd) = [.error .eof] := by
        have hall := expected_skipped [] hskips
        rwa [List.append_nil] at hall
      have hplain : PlainLines (todo.map Prod.snd) := by
        have hall :=
          (plainLines_skipped [] hskips fun e he => h.inLine e (List.mem_append_right _ he)).mpr
            trivial
        rwa [List.append_nil] at hall
      rw [hexpected]
      exact iff_of_true (getProperties_one (getNextProperty_eof h hskips hcarried)) hplain
    · have hlines : ∀ d ∈ skips, InLine d.2 :=
        fun d hd => h.inLine d (List.mem_append_right _ (List.mem_append_left _ hd))
      have hline : InLine e.2 :=
        h.inLine e (List.mem_append_right _ (List.mem_append_right _ List.mem_cons_self))
      have hexpected : expected ((skips ++ e :: es).map Prod.snd) =
          expected (e.2 :: es.map Prod.snd) := by
        rw [List.map_append, expected_skipped _ hskips, List.map_cons]
      have hplain : PlainLines ((skips ++ e :: es).map Prod.snd) ↔
          PlainLines (e.2 :: es.map Prod.snd) := by
        rw [List.map_append, plainLines_skipped _ hskips hlines, List.map_cons]
      have hmeets := uncarried_meets hcarried
      rw [hexpected, hplain, expected, PlainLines, ← contentRead_eq_iff hline]
      cases hcontent : contentOf e.2 with
      | skipped => exact absurd hcontent hfound
      | malformed =>
        have hgoal : (getProperties 1 p).map Prod.fst = some [.error .err] ↔
            contentRead e.2 = .malformed := by
          cases hread : contentRead e.2 with
          | skipped => exact absurd (contentRead_skipped_iff.mp hread) hfound
          | malformed =>
            obtain ⟨p', hcall⟩ := (h.meets hskips hmeets).malformed hread
            exact iff_of_true (getProperties_one hcall) rfl
          | property name value =>
            obtain ⟨p', l, hcall, -⟩ := getNextProperty_property h hskips hread hmeets
            rw [getProperties_one hcall]
            exact iff_of_false (by simp) LineContent.noConfusion
        exact hgoal.trans (iff_of_eq (by simp))
      | property name value =>
        dsimp only
        obtain ⟨name', value', hread⟩ := contentRead_of_property hcontent
        obtain ⟨p', l, hcall, hparses⟩ := getNextProperty_property h hskips hread hmeets
        have hrest := uncarried_rest hskips hcontent hcarried
        have hlt : es.length < (skips ++ e :: es).length := by
          rw [List.length_append, List.length_cons]
          omega
        have hih := ih es.length hlt hparses hrest rfl
        rw [List.length_cons, getProperties_succ hcall, hread, ← hih]
        constructor
        · intro hsome
          obtain ⟨rs, hrs, heq⟩ := Option.map_eq_some_iff.mp hsome
          obtain ⟨hfirst, rfl⟩ := List.cons.inj heq
          obtain ⟨rfl, rfl⟩ := Prod.mk.inj (Except.ok.inj hfirst)
          exact ⟨rfl, .inr hrs⟩
        · rintro ⟨heq, hmalformed | hrs⟩
          · cases hmalformed
          · obtain ⟨rfl, rfl⟩ := LineContent.property.inj heq
            rw [hrs]
            rfl

/-- **The calls return the properties of a file if and only if the tokens of its lines are plain**,
where no line is read from a column behind the blanks it begins with. -/
theorem properties_follow_iff (file : List Char) (hnull : '\x00' ∉ file)
    (hcarried : Uncarried 0 (linesOf file)) :
    Follows file ↔ PlainLines (linesOf file) := by
  have hlines : (entries 0 (textLines file)).map Prod.snd = linesOf file :=
    entries_texts 0 (textLines file)
  rw [← hlines] at hcarried
  have hrun := follows_run (parses_init hnull) hcarried
  rw [hlines] at hrun
  exact hrun

def indented : List Char := [' ', '#', '\n', ' ', 'x', '=', '1', ' ', '#']

theorem follows_indented : Follows indented := by
  apply (properties_follow_iff indented (by decide) ?_).mpr
  · exact ⟨fun h => absurd rfl h, .inr ⟨fun _ _ => by unfold PlainToken; decide, .inr trivial⟩⟩
  · exact ⟨Nat.zero_le _, Nat.le_refl _, trivial⟩

/-- The property begins further to the left, and is taken for the end of its line. -/
theorem not_follows : ¬ Follows [' ', ' ', ' ', '#', '\n', 'x', '=', '1'] := by
  have hfirst : (getProperties 2 (init [' ', ' ', ' ', '#', '\n', 'x', '=', '1'])).map Prod.fst =
    some [.error .eof, .error .eof] := rfl
  have hexpected : expected (linesOf [' ', ' ', ' ', '#', '\n', 'x', '=', '1']) =
    [.ok (['x'], ['1']), .error .eof] := rfl
  intro h
  rw [Follows, hexpected] at h
  have heq := Option.some.inj (hfirst.symm.trans h)
  cases heq

end PropertiesParser

end TraceDecoder
