import TraceDecoder.PropertiesLines

/-!
# Rewinding the properties

A line whose property has been handed out is handed out again from what has been kept of it, but
only by a call that begins with it. The loop that passes blank lines and comments reads the line it
ends with again, of which only the name is left.
-/

namespace TraceDecoder

namespace PropertiesParser

/-- After `n` calls and `rewind` the calls return what they return of a fresh parser; a call that
reads behind the buffer has no result for either. -/
def RestartsAfter (file : List Char) (n : ℕ) : Prop :=
  ∃ rs p, getProperties n (init file) = some (rs, p) ∧
    ∀ m, (getProperties m p.rewind).map Prod.fst = (getProperties m (init file)).map Prod.fst

/-- Nothing stands in front of the first `n` properties, or of all of them if there are fewer and
the rest is read from its blanks. -/
def Restartable : ℕ → List (List Char) → Prop
  | 0, _ => True
  | _ + 1, [] => True
  | n + 1, line :: lines =>
    ((∃ name value, contentOf line = .property name value) ∧ Restartable n lines) ∨
      (∀ text ∈ line :: lines, contentOf text = .skipped) ∧ Uncarried 0 (line :: lines)

def Hands (r : Property) (e : PropertiesLine × List Char) : Prop :=
  ∃ name value, contentRead e.2 = .property name value ∧ r = .ok (name, value)

variable {p : PropertiesParser} {done todo news : List (PropertiesLine × List Char)}

/-! ### Calls one after another -/

theorem getProperties_add (m n : ℕ) (p : PropertiesParser) : getProperties (m + n) p =
    (getProperties m p).bind fun r => (getProperties n r.2).map fun r' => (r.1 ++ r'.1, r'.2) := by
  induction m generalizing p with
  | zero =>
    rw [Nat.zero_add, getProperties, Option.bind_some]
    simp
  | succ m ih =>
    rw [Nat.succ_add, getProperties, getProperties]
    cases p.getNextProperty with
    | none => rfl
    | some r =>
      obtain ⟨r, q⟩ := r
      rw [Option.bind_some, Option.bind_some]
      dsimp only
      rw [ih]
      cases getProperties m q with
      | none => rfl
      | some r' =>
        rw [Option.bind_some, Option.map_map]
        rfl

theorem length_getProperties {n : ℕ} {p p' : PropertiesParser} {rs : List Property}
    (h : getProperties n p = some (rs, p')) : rs.length = n := by
  induction n generalizing p rs with
  | zero =>
    cases h
    rfl
  | succ n ih =>
    obtain ⟨⟨r, q⟩, -, hrest⟩ := Option.bind_eq_some_iff.mp h
    obtain ⟨⟨rs', q'⟩, hrs, heq⟩ := Option.map_eq_some_iff.mp hrest
    cases heq
    rw [List.length_cons, ih hrs]

/-- Two states from which `n` calls come to the same state with the same results have the same
results for ever. -/
theorem getProperties_agree {n : ℕ} {p q p' : PropertiesParser} {rs : List Property}
    (hp : getProperties n p = some (rs, p'))
    (hq : getProperties n q = some (rs, p')) (m : ℕ) : (getProperties m p).map Prod.fst =
    (getProperties m q).map Prod.fst := by
  rcases Nat.le_total n m with hle | hle
  · obtain ⟨k, rfl⟩ := Nat.exists_eq_add_of_le hle
    rw [getProperties_add, getProperties_add, hp, hq]
  · have hfirst {p : PropertiesParser} (h : getProperties n p = some (rs, p')) :
        (getProperties m p).map Prod.fst = some (rs.take m) := by
      obtain ⟨k, rfl⟩ := Nat.exists_eq_add_of_le hle
      rw [getProperties_add] at h
      obtain ⟨⟨rs₁, q₁⟩, hm, hrest⟩ := Option.bind_eq_some_iff.mp h
      obtain ⟨⟨rs₂, q₂⟩, -, heq⟩ := Option.map_eq_some_iff.mp hrest
      cases heq
      rw [hm, List.take_left' (length_getProperties hm)]
      rfl
    rw [hfirst hp, hfirst hq]

/-! ### The first pass -/

/-- Lines with properties that follow each other are handed out by one call each. -/
theorem getProperties_news (h : Parses p done (news ++ todo))
    (hnews : ∀ e ∈ news, ∃ name value, contentOf e.2 = .property name value) :
    ∃ rs p' news', getProperties news.length p = some (rs, p') ∧ Parses p' (done ++ news') todo ∧
      List.Forall₂ Hands rs news' ∧
      news'.map Prod.snd = news.map Prod.snd := by
  induction news generalizing p done with
  | nil => exact ⟨[], p, [], rfl, by rw [List.append_nil]; exact h, .nil, rfl⟩
  | cons e news ih =>
    obtain ⟨⟨name, value, hcontent⟩, hnews⟩ := List.forall_mem_cons.mp hnews
    obtain ⟨name', value', hread⟩ := contentRead_of_property hcontent
    have hcarried : Uncarried 0 (([] : List (PropertiesLine × List Char)).map Prod.snd ++
        [e.2]) := by
      refine ⟨Nat.zero_le _, ?_⟩
      rw [hcontent]
      trivial
    have hfirst : Parses p done ([] ++ e :: (news ++ todo)) := h
    obtain ⟨p', l, hcall, hparses⟩ :=
      getNextProperty_property hfirst (List.forall_mem_nil _) hread hcarried
    rw [List.append_nil] at hparses
    obtain ⟨rs, p'', news', hrun, hparses', hhands, htexts⟩ := ih hparses hnews
    refine ⟨.ok (name', value') :: rs, p'', (l, e.2) :: news', ?_, ?_, .cons ⟨name', value', hread,
      rfl⟩ hhands, ?_⟩
    · rw [List.length_cons, getProperties, hcall, Option.bind_some]
      dsimp only
      rw [hrun]
      rfl
    · rw [List.append_cons]
      exact hparses'
    · rw [List.map_cons, List.map_cons, htexts]

theorem getProperties_eof (h : Parses p done todo) (hskips : ∀ e ∈ todo, contentOf e.2 = .skipped)
    (hcarried : Uncarried 0 (todo.map Prod.snd)) (n : ℕ) :
    ∃ rs p', getProperties n p = some (rs, p') ∧ p'.rewind = p.rewind := by
  induction n generalizing p done todo with
  | zero => exact ⟨[], p, rfl, rfl⟩
  | succ n ih =>
    have hcall := getNextProperty_eof h hskips hcarried
    obtain ⟨rs, p', hrun, hrewind⟩ := ih (h.eof hskips) (List.forall_mem_nil _) trivial
    refine ⟨.error .eof :: rs, p', ?_, hrewind⟩
    rw [getProperties, hcall, Option.bind_some]
    dsimp only
    rw [hrun]
    rfl

/-! ### The second pass -/

/-- A line whose property has been handed out is handed out again. -/
theorem getNextProperty_cached {lines : List PropertiesLine} {e : PropertiesLine × List Char}
    {name value : List Char}
    (hstatus : p.status = .ok) (hlines : p.lines = some lines) (hl : lines[p.nextLine]? = some e.1)
    (hcached : Cached p.propertiesBuff e name value) (hname : InLine name) (hvalue : InLine value) :
    p.getNextProperty = some (.ok (name, value), { p with nextLine := p.nextLine + 1 }) := by
  obtain ⟨⟨a, ha, hatName, -⟩, ⟨b, hb, hatValue, -⟩, -⟩ := hcached
  obtain ⟨⟨line, _, _⟩, text⟩ := e
  cases ha
  cases hb
  obtain ⟨status, buff, _, nextLine⟩ := p
  cases hlines
  rw [getNextProperty, if_neg (not_not.mpr hstatus)]
  dsimp only at hl ⊢
  rw [hl, ← stringAt_eq hatName hname, ← stringAt_eq hatValue hvalue]

theorem inLine_of_property {text name value : List Char} (htext : InLine text)
    (h : contentRead text = .property name value) :
    InLine name ∧ InLine value := by
  obtain ⟨rfl, -, -, rfl⟩ := contentRead_eq_property h
  refine ⟨fun c hc => htext.behindBlanks c ((tokenOf_start _).subset hc), fun c hc => ?_⟩
  exact (htext.behindBlanks.drop _).behindBlanks.tail.behindBlanks c ((tokenOf_start _).subset hc)

theorem getProperties_cached {front behind : List PropertiesLine} {rs : List Property}
    (hstatus : p.status = .ok)
    (hlines : p.lines = some (front ++ (news.map Prod.fst ++ behind)))
    (hnextLine : p.nextLine = front.length)
    (hpassed : ∀ e ∈ news, Passed p.propertiesBuff e) (hinLine : ∀ e ∈ news, InLine e.2)
    (hhands : List.Forall₂ Hands rs news) :
    getProperties news.length p = some
      (rs, { p with nextLine := (front ++ news.map Prod.fst).length }) := by
  induction hhands generalizing p front with
  | nil =>
    rw [List.map_nil, List.append_nil, ← hnextLine]
    rfl
  | @cons r e rs news hfirst _ ih =>
    obtain ⟨hpassedFirst, hpassed⟩ := List.forall_mem_cons.mp hpassed
    obtain ⟨hline, hinLine⟩ := List.forall_mem_cons.mp hinLine
    obtain ⟨name, value, hread, rfl⟩ := hfirst
    obtain ⟨hname, hvalue⟩ := inLine_of_property hline hread
    have hl : (front ++ ((e :: news).map Prod.fst ++ behind))[p.nextLine]? = some e.1 := by
      rw [hnextLine, List.getElem?_append_right (Nat.le_refl _), Nat.sub_self]
      rfl
    have hcall :=
      getNextProperty_cached hstatus hlines hl (hpassedFirst.property name value hread) hname hvalue
    have hlines' : p.lines = some ((front ++ [e.1]) ++ (news.map Prod.fst ++ behind)) := by
      rw [List.append_assoc]
      exact hlines
    have hnextLine' : p.nextLine + 1 = (front ++ [e.1]).length := by
      rw [List.length_append, hnextLine, List.length_singleton]
    have hrest :=
      ih (p := { p with nextLine := p.nextLine + 1 }) hstatus hlines' hnextLine' hpassed hinLine
    rw [List.length_cons, getProperties, hcall, Option.bind_some]
    dsimp only
    rw [hrest, List.append_assoc]
    rfl

/-- The second pass over lines with properties that follow each other ends in
the state of the first. -/
theorem getProperties_rewind {rs : List Property} (h : Parses p news todo)
    (hhands : List.Forall₂ Hands rs news) :
    getProperties news.length p.rewind = some (rs, p) := by
  have hlines : p.rewind.lines = some ([] ++ (news.map Prod.fst ++ todo.map Prod.fst)) := by
    rw [List.nil_append, ← List.map_append]
    exact h.lines
  have hrun := getProperties_cached (p := p.rewind) h.status hlines rfl h.passed
    (fun e he => h.inLine e (List.mem_append_left _ he)) hhands
  have hstate : { p.rewind with nextLine := ([] ++ news.map Prod.fst).length } = p := by
    rw [List.nil_append, List.length_map, ← h.nextLine]
    rfl
  rw [hrun, hstate]

/-! ### Files that can be read again -/

/-- The lines with properties a file begins with, up to the line that call `n` ends at. -/
theorem Restartable.split {n : ℕ} (h : Restartable n (todo.map Prod.snd)) :
    ∃ news rest, todo = news ++ rest ∧ news.length ≤ n ∧ (∀ e ∈ news, ∃ name value, contentOf e.2 =
        .property name value) ∧
      (news.length = n ∨ (∀ e ∈ rest, contentOf e.2 = .skipped) ∧
        Uncarried 0 (rest.map Prod.snd)) := by
  induction n generalizing todo with
  | zero => exact ⟨[], todo, rfl, Nat.le_refl 0, List.forall_mem_nil _, .inl rfl⟩
  | succ n ih =>
    cases todo with
    | nil =>
      exact ⟨[], [], rfl, Nat.zero_le _, List.forall_mem_nil _,
        .inr ⟨List.forall_mem_nil _, trivial⟩⟩
    | cons e todo =>
      rcases h with ⟨hproperty, hrest⟩ | ⟨hskips, hcarried⟩
      · obtain ⟨news, rest, rfl, hle, hnews, hend⟩ := ih hrest
        exact ⟨e :: news, rest, rfl, Nat.succ_le_succ hle, List.forall_mem_cons.mpr
          ⟨hproperty, hnews⟩, hend.imp_left (congrArg (· + 1))⟩
      · refine ⟨[], e :: todo, rfl, Nat.zero_le _, List.forall_mem_nil _, .inr ⟨?_, hcarried⟩⟩
        intro d hd
        exact hskips d.2 (List.mem_map_of_mem (f := Prod.snd) hd)

/-- The properties at the start of a file are handed out again. -/
theorem restarts_of_restartable {file : List Char} (hnull : '\x00' ∉ file) {n : ℕ}
    (h : Restartable n (linesOf file)) :
    RestartsAfter file n := by
  rw [linesOf, ← entries_texts 0] at h
  obtain ⟨news, rest, hentries, hle, hnews, hend⟩ := h.split
  have hparses := parses_init hnull
  rw [hentries] at hparses
  obtain ⟨rs, p, news', hrun, hparses', hhands, htexts⟩ := getProperties_news hparses hnews
  rw [List.nil_append] at hparses'
  have hlength : news'.length = news.length := by
    simpa only [List.length_map] using congrArg List.length htexts
  have hagree := getProperties_agree (hlength ▸ getProperties_rewind hparses' hhands) hrun
  obtain ⟨rs', p', hrun', hrewind⟩ : ∃ rs' p', getProperties (n - news.length) p = some (rs', p') ∧
      p'.rewind = p.rewind := by
    rcases hend with rfl | ⟨hskips, hcarried⟩
    · rw [Nat.sub_self]
      exact ⟨[], p, rfl, rfl⟩
    · exact getProperties_eof hparses' hskips hcarried _
  refine ⟨rs ++ rs', p', ?_, ?_⟩
  · rw [← Nat.add_sub_of_le hle, getProperties_add, hrun, Option.bind_some]
    dsimp only
    rw [hrun']
    rfl
  · rw [hrewind]
    exact hagree

/-! ### Files that cannot -/

theorem exists_property {line : List Char} (hskipped : contentOf line ≠ .skipped)
    (hmalformed : contentOf line ≠ .malformed) :
    ∃ name value, contentOf line = .property name value := by
  cases hcontent : contentOf line with
  | skipped => exact absurd hcontent hskipped
  | malformed => exact absurd hcontent hmalformed
  | property name value => exact ⟨name, value, rfl⟩

theorem getProperties_parses (h : Parses p done todo)
    (hwell : ∀ e ∈ todo, contentOf e.2 ≠ .malformed)
    (hcarried : Uncarried 0 (todo.map Prod.snd)) (n : ℕ) :
    ∃ rs p' more todo', getProperties n p = some (rs, p') ∧ Parses p' (done ++ more) todo' := by
  induction n generalizing p done todo with
  | zero => exact ⟨[], p, [], todo, rfl, by rw [List.append_nil]; exact h⟩
  | succ n ih =>
    rcases exists_skipped todo with hskips | ⟨skips, e, es, rfl, hskips, hfound⟩
    · have hcall := getNextProperty_eof h hskips hcarried
      obtain ⟨rs, p', more, todo', hrun, hparses⟩ :=
        ih (h.eof hskips) (List.forall_mem_nil _) trivial
      refine ⟨.error .eof :: rs, p', todo ++ more, todo',
        ?_, by rw [← List.append_assoc]; exact hparses⟩
      rw [getProperties, hcall, Option.bind_some]
      dsimp only
      rw [hrun]
      rfl
    · obtain ⟨name, value, hcontent⟩ :=
        exists_property hfound (hwell e (List.mem_append_right _ List.mem_cons_self))
      obtain ⟨name', value', hread⟩ := contentRead_of_property hcontent
      obtain ⟨p', l, hcall, hparses⟩ :=
        getNextProperty_property h hskips hread (uncarried_meets hcarried)
      have hes : ∀ e ∈ es, contentOf e.2 ≠ .malformed :=
        fun d hd => hwell d (List.mem_append_right _ (List.mem_cons_of_mem _ hd))
      obtain ⟨rs, p'', more, todo', hrun, hparses'⟩ :=
        ih hparses hes (uncarried_rest hskips hcontent hcarried)
      refine ⟨.ok (name', value') :: rs, p'', skips ++ [(l, e.2)] ++ more, todo', ?_, ?_⟩
      · rw [getProperties, hcall, Option.bind_some]
        dsimp only
        rw [hrun]
        rfl
      · rw [List.append_assoc done] at hparses'
        rw [← List.append_assoc]
        exact hparses'

/-- A file that does not begin with its properties has one behind a line without any. -/
theorem restartable_or (hwell : ∀ e ∈ todo, contentOf e.2 ≠ .malformed)
    (hcarried : Uncarried 0 (todo.map Prod.snd)) (n : ℕ) :
    Restartable n (todo.map Prod.snd) ∨ ∃ news skips e es, todo = news ++ (skips ++ e :: es) ∧
      news.length < n ∧
      (∀ e ∈ news, ∃ name value, contentOf e.2 = .property name value) ∧ skips ≠ [] ∧
      (∀ e ∈ skips, contentOf e.2 = .skipped) ∧
      (∃ name value, contentOf e.2 = .property name value) ∧ Uncarried 0
      ((skips ++ e :: es).map Prod.snd) := by
  induction n generalizing todo with
  | zero => exact .inl trivial
  | succ n ih =>
    cases todo with
    | nil => exact .inl trivial
    | cons e todo =>
      obtain ⟨hfirst, hrest⟩ := List.forall_mem_cons.mp hwell
      by_cases hskip : contentOf e.2 = .skipped
      · rcases exists_skipped (e :: todo) with hskips | ⟨skips, d, es, heq, hskips, hfound⟩
        · refine .inl (.inr ⟨?_, hcarried⟩)
          intro line hline
          obtain ⟨d, hd, rfl⟩ := List.mem_map (l := e :: todo).mp hline
          exact hskips d hd
        · have hne : skips ≠ [] := by
            rintro rfl
            cases heq
            exact hfound hskip
          have hd : d ∈ e :: todo := by
            rw [heq]
            exact List.mem_append_right _ List.mem_cons_self
          refine .inr ⟨[], skips, d, es, heq, Nat.succ_pos n, List.forall_mem_nil _, hne, hskips,
            exists_property hfound (hwell d hd), ?_⟩
          rw [← heq]
          exact hcarried
      · obtain ⟨name, value, hcontent⟩ := exists_property hskip hfirst
        rcases ih hrest (hcarried.tail hcontent) with hleft | ⟨news, skips, d, es, rfl, hlt,
          hnews, hright⟩
        · exact .inl (.inl ⟨⟨name, value, hcontent⟩, hleft⟩)
        · exact .inr ⟨e :: news, skips, d, es, rfl, Nat.succ_lt_succ hlt, List.forall_mem_cons.mpr
            ⟨⟨name, value, hcontent⟩, hnews⟩, hright⟩

theorem tokenOf_tokenOf (s : List Char) : tokenOf (tokenOf s) = tokenOf s := by
  by_cases hequals : s.head? = some '='
  · have htoken : tokenOf s = ['='] := if_pos hequals
    rw [htoken]
    rfl
  · have htoken : tokenOf s = s.takeWhile (· ∉ [' ', '#', '=']) := if_neg hequals
    have hgo : ∀ c ∈ s.takeWhile (· ∉ [' ', '#', '=']), decide (c ∉ [' ', '#', '=']) = true := by
      intro c hc
      have hc' := List.mem_takeWhile_imp hc
      exact hc'
    have hhead : (s.takeWhile (· ∉ [' ', '#', '='])).head? ≠ some '=' := fun h =>
      absurd (hgo '=' (List.mem_of_head? h)) (by decide)
    rw [htoken, tokenOf, if_neg hhead, List.takeWhile_eq_self_iff.mpr hgo]

theorem contentRead_cut {text name value : List Char}
    (h : contentRead text = .property name value) :
    contentRead (text.takeWhile (IsBlank ·) ++ name) = .malformed ∧ leading
      (text.takeWhile (IsBlank ·) ++ name) = leading text := by
  obtain ⟨rfl, hname, -, -⟩ := contentRead_eq_property h
  have hblanks : ∀ c ∈ text.takeWhile (IsBlank ·), decide (IsBlank c) = true :=
    fun c hc => decide_eq_true (blank_of_mem hc)
  have hhead : ∀ c ∈ (tokenOf (behindBlanks text)).head?, decide (IsBlank c) = false := by
    intro c hc
    obtain ⟨rest, hrest⟩ := tokenOf_start (behindBlanks text)
    apply decide_eq_false
    apply not_blank_of_head text
    rw [← hrest, List.head?_append, Option.mem_def.mp hc]
    rfl
  have hbehind : behindBlanks (text.takeWhile (IsBlank ·) ++ tokenOf (behindBlanks text)) =
      tokenOf (behindBlanks text) :=
    CString.dropWhile_append_stop hblanks hhead
  have htoken := tokenOf_tokenOf (behindBlanks text)
  have hrest : behindToken (tokenOf (behindBlanks text)) = [] := by
    rw [behindToken, htoken, List.drop_length]
    rfl
  refine ⟨?_, congrArg List.length (CString.takeWhile_append_stop hblanks hhead)⟩
  unfold contentRead
  dsimp only
  rw [hbehind, htoken, if_neg hname, hrest, if_neg (by simp)]

theorem Uncarried.last {column : ℕ} {lines : List (List Char)} {text text' : List Char}
    (h : Uncarried column (lines ++ [text]))
    (hle : leading text ≤ leading text') : Uncarried column (lines ++ [text']) := by
  induction lines generalizing column with
  | nil =>
    refine ⟨h.1.trans hle, ?_⟩
    split
    · trivial
    · trivial
    · trivial
  | cons line lines ih =>
    obtain ⟨hcolumn, hrest⟩ := h
    refine ⟨hcolumn, ?_⟩
    cases hcontent : contentOf line with
    | skipped =>
      rw [hcontent] at hrest
      exact ih hrest
    | property name value =>
      rw [hcontent] at hrest
      exact ih hrest
    | malformed => trivial

/-- A line behind one without a property is not handed out again. -/
theorem getNextProperty_again {news skips more todo : List (PropertiesLine × List Char)}
    {e : PropertiesLine × List Char}
    {name value : List Char} (h : Parses p (news ++ skips ++ [e] ++ more) todo) (hne : skips ≠ [])
    (hskips : ∀ e ∈ skips, contentOf e.2 = .skipped)
    (hread : contentRead e.2 = .property name value)
    (hcarried : Uncarried 0 (skips.map Prod.snd ++ [e.2])) :
    ∃ p', { p with nextLine := news.length }.getNextProperty = some (.error .err, p') := by
  have hskip : ∀ d ∈ skips, d ∈ news ++ skips ++ [e] ++ more := fun d hd => by simp [hd]
  have he : e ∈ news ++ skips ++ [e] ++ more := by simp
  obtain ⟨hcut, hleading⟩ := contentRead_cut hread
  have hfresh : ∀ d ∈ skips, Fresh p.propertiesBuff d := fun d hd =>
    (h.passed d (hskip d hd)).skipped (contentRead_skipped_iff.mpr (hskips d hd))
  have hmeets : Meets { p with nextLine := news.length } (news.map Prod.fst) skips e.1
      (e.2.takeWhile (IsBlank ·) ++ name) ((more ++ todo).map Prod.fst) := by
    constructor
    · exact h.status
    · dsimp only
      rw [h.lines]
      simp only [List.map_append, List.map_cons, List.append_assoc, List.cons_append,
        List.nil_append]
    · exact (List.length_map _).symm
    · exact fun d hd => (hfresh d hd).2
    · exact fun d hd => h.inLine d (List.mem_append_left _ (hskip d hd))
    · exact hskips
    · exact ((h.passed e he).property name value hread).atLine.1
    · intro c hc
      rcases List.mem_append.mp hc with hc | hc
      · exact h.inLine e (List.mem_append_left _ he) c ((List.takeWhile_prefix _).subset hc)
      · exact (inLine_of_property (h.inLine e (List.mem_append_left _ he)) hread).1 c hc
    · intro first hfirst
      obtain ⟨d, skips, rfl⟩ := List.exists_cons_of_ne_nil hne
      cases hfirst
      exact (hfresh d List.mem_cons_self).1
    · exact hcarried.last hleading.ge
  exact hmeets.malformed hcut

theorem getProperties_parses_init {file : List Char} (hnull : '\x00' ∉ file)
    (hwell : ∀ line ∈ linesOf file, contentOf line ≠ .malformed)
    (hcarried : Uncarried 0 (linesOf file)) (n : ℕ) :
    ∃ rs p done todo, getProperties n (init file) = some (rs, p) ∧ Parses p done todo := by
  have hentries : (entries 0 (textLines file)).map Prod.snd = linesOf file := entries_texts 0 _
  rw [← hentries] at hcarried hwell
  obtain ⟨rs, p, more, todo, hrun, hparses⟩ := getProperties_parses (parses_init hnull)
    (fun e he => hwell e.2 (List.mem_map_of_mem (f := Prod.snd) he)) hcarried n
  exact ⟨rs, p, _, todo, hrun, hparses⟩

theorem restartable_of_restarts {file : List Char} (hnull : '\x00' ∉ file)
    (hwell : ∀ line ∈ linesOf file, contentOf line ≠ .malformed)
    (hcarried : Uncarried 0 (linesOf file)) {n : ℕ} (h : RestartsAfter file n) :
    Restartable n (linesOf file) := by
  have hentries : (entries 0 (textLines file)).map Prod.snd = linesOf file := entries_texts 0 _
  rw [← hentries] at hcarried hwell ⊢
  have hwell' : ∀ e ∈ entries 0 (textLines file), contentOf e.2 ≠ .malformed := fun e he =>
    hwell e.2 (List.mem_map_of_mem (f := Prod.snd) he)
  refine (restartable_or hwell' hcarried n).resolve_right ?_
  rintro ⟨news, skips, e, es, hsplit, hlt, hnews, hne, hskips, ⟨name, value, hcontent⟩, hrest⟩
  obtain ⟨name', value', hread⟩ := contentRead_of_property hcontent
  have hparses := parses_init hnull
  rw [hsplit] at hparses
  -- the first pass, up to the property behind the skipped lines and then to its end
  obtain ⟨rs, p, news', hrun, hfirst, hhands, htexts⟩ := getProperties_news hparses hnews
  rw [List.nil_append] at hfirst
  have hmeets := uncarried_meets hrest
  obtain ⟨p', l, hcall, hsecond⟩ := getNextProperty_property hfirst hskips hread hmeets
  have hes : ∀ d ∈ es, contentOf d.2 ≠ .malformed := fun d hd =>
    hwell' d (hsplit ▸ List.mem_append_right
      _ (List.mem_append_right _ (List.mem_cons_of_mem _ hd)))
  obtain ⟨rs', p'', more, todo', hrun', hlast⟩ :=
    getProperties_parses hsecond hes (uncarried_rest hskips hcontent hrest) (n - (news.length + 1))
  have hfresh : getProperties (news.length + 1) (init file) =
      some (rs ++ [.ok (name', value')], p') := by
    rw [getProperties_add, hrun, Option.bind_some, getProperties, hcall]
    rfl
  obtain ⟨rs₀, p₀, hcalls, hsame⟩ := h
  have hstate : p₀ = p'' := by
    rw [← Nat.add_sub_of_le (Nat.succ_le_of_lt hlt), getProperties_add, hfresh, Option.bind_some,
      hrun'] at hcalls
    cases hcalls
    rfl
  subst hstate
  -- the second pass
  have hlength : news'.length = news.length := by
    simpa only [List.length_map] using congrArg List.length htexts
  obtain ⟨p₁, hagain⟩ := getNextProperty_again hlast hne hskips hread hmeets
  have hcached : getProperties news'.length p₀.rewind =
      some (rs, { p₀ with nextLine := news'.length }) := by
    have hlines : p₀.rewind.lines =
        some ([] ++ (news'.map Prod.fst ++ (skips ++ [(l, e.2)] ++ more ++ todo').map
        Prod.fst)) := by
      rw [List.nil_append, ← List.map_append]
      simp only [← List.append_assoc]
      exact hlast.lines
    have hmem : ∀ d ∈ news', d ∈ news' ++ skips ++ [(l, e.2)] ++ more := fun d hd => by simp [hd]
    have hcached := getProperties_cached (p := p₀.rewind) hlast.status hlines rfl
      (fun d hd => hlast.passed d (hmem d hd))
        (fun d hd => hlast.inLine d (List.mem_append_left _ (hmem d hd))) hhands
    rw [List.nil_append, List.length_map] at hcached
    exact hcached
  have hrewound : (getProperties (news.length + 1) p₀.rewind).map Prod.fst =
      some (rs ++ [.error .err]) := by
    rw [getProperties_add, ← hlength, hcached, Option.bind_some, getProperties, hagain]
    rfl
  have hboth := hsame (news.length + 1)
  rw [hrewound, hfresh] at hboth
  have heq := List.append_cancel_left (Option.some.inj hboth)
  cases heq

/-- **The calls start again after `rewind`** if no line without a property stands in front of a
property that has been handed out; and only then, where no line is read from a column behind the
blanks it begins with. There every call has a result. -/
theorem rewind_restarts (file : List Char) (hnull : '\x00' ∉ file)
    (hwell : ∀ line ∈ linesOf file, contentOf line ≠ .malformed) (n : ℕ) :
    (Restartable n (linesOf file) → RestartsAfter file n) ∧
      (Uncarried 0 (linesOf file) →
        (RestartsAfter file n → Restartable n (linesOf file)) ∧ ∀ m,
          (getProperties m (init file)).isSome = true) := by
  refine ⟨restarts_of_restartable hnull, fun hcarried => ⟨restartable_of_restarts hnull hwell
    hcarried, fun m => ?_⟩⟩
  obtain ⟨rs, p, -, -, hrun, -⟩ := getProperties_parses_init hnull hwell hcarried m
  rw [hrun]
  rfl

/-- A property in front of a comment. -/
theorem restarts_first : RestartsAfter ['x', '=', '1', '\n', '#'] 1 :=
  (rewind_restarts ['x', '=', '1', '\n', '#'] (by decide) (by decide) 1).1
    (.inl ⟨⟨['x'], ['1'], rfl⟩, trivial⟩)

/-- A property behind an empty line. -/
theorem not_restarts : ¬ RestartsAfter ['\n', 'x', '=', '1'] 1 := by
  rintro ⟨rs, p, hcalls, hsame⟩
  have hagain : ((getProperties 1 (init ['\n', 'x', '=', '1'])).bind fun r =>
      (getProperties 1 r.2.rewind).map Prod.fst) = some [.error .err] := rfl
  have hfirst : (getProperties 1 (init ['\n', 'x', '=', '1'])).map Prod.fst =
    some [.ok (['x'], ['1'])] := rfl
  rw [hcalls, Option.bind_some, hsame, hfirst] at hagain
  cases hagain

end PropertiesParser

end TraceDecoder
