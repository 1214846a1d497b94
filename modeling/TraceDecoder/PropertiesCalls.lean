import TraceDecoder.PropertiesTokens

/-!
# Calls on properties

The loop that looks for a name goes on in the next line at the column it has come to in the last.
That makes no difference where each line behind one without a property begins with as many blanks.
-/

namespace TraceDecoder

namespace PropertiesParser

variable {p : PropertiesParser} {l : PropertiesLine} {text : List Char}

def Fresh (buff : List Char) (e : PropertiesLine × List Char) : Prop :=
  e.1.name = none ∧ HasString buff e.1.line e.2

structure Cached (buff : List Char) (e : PropertiesLine × List Char) (name value : List Char) :
    Prop where
  atName : ∃ a, e.1.name = some a ∧ HasString buff a name ∧ a + name.length ≤ e.1.line + e.2.length
  atValue : ∃ b, e.1.value = some b ∧ HasString buff b value ∧ b + value.length ≤
    e.1.line + e.2.length
  atLine : HasString buff e.1.line (e.2.takeWhile (IsBlank ·) ++ name) ∧
    (e.2.takeWhile (IsBlank ·) ++ name).length ≤ e.2.length

structure Passed (buff : List Char) (e : PropertiesLine × List Char) : Prop where
  property : ∀ name value, contentRead e.2 = .property name value → Cached buff e name value
  skipped : contentRead e.2 = .skipped → Fresh buff e

/-- The state between two calls: the lines that have been passed, and those that have not, with the
texts they had in the file. -/
structure Parses (p : PropertiesParser) (done todo : List (PropertiesLine × List Char)) : Prop where
  status : p.status = .ok
  lines : p.lines = some ((done ++ todo).map Prod.fst)
  nextLine : p.nextLine = done.length
  apart : ((done ++ todo).map fun e => (e.1.line, e.2.length)).Pairwise fun d e => d.1 + d.2 < e.1
  inLine : ∀ e ∈ done ++ todo, InLine e.2
  passed : ∀ e ∈ done, Passed p.propertiesBuff e
  fresh : ∀ e ∈ todo, Fresh p.propertiesBuff e

/-- Each line behind one without a property begins with as many blanks, up to the first that is
malformed. -/
def Uncarried : ℕ → List (List Char) → Prop
  | _, [] => True
  | column, line :: lines => column ≤ leading line ∧
    match contentOf line with
    | .skipped => Uncarried (leading line) lines
    | .property _ _ => Uncarried 0 lines
    | .malformed => True

section

variable {done todo : List (PropertiesLine × List Char)} {e : PropertiesLine × List Char}
    {buff buff' : List Char}

theorem Passed.mono (h : Passed buff e)
    (hstrings : ∀ i s, i + s.length ≤ e.1.line + e.2.length → HasString buff i s → HasString buff' i
      s) : Passed buff' e := by
  constructor
  · intro name value hcontent
    obtain ⟨⟨a, ha, hname, hale⟩, ⟨b, hb, hvalue, hble⟩, hline, hle⟩ :=
      h.property name value hcontent
    exact ⟨⟨a, ha, hstrings a name hale hname, hale⟩, ⟨b, hb, hstrings b value hble hvalue, hble⟩,
      hstrings _ _ (by omega) hline, hle⟩
  · intro hcontent
    obtain ⟨hname, hline⟩ := h.skipped hcontent
    exact ⟨hname, hstrings _ _ (Nat.le_refl _) hline⟩

theorem findName_skipped {skips : List (PropertiesLine × List Char)} (ls : List PropertiesLine)
    (texts : List (List Char)) {column : ℕ}
    (hstrings : ∀ e ∈ skips, HasString buff e.1.line e.2) (hlines : ∀ e ∈ skips, InLine e.2)
    (hskips : ∀ e ∈ skips, contentOf e.2 = .skipped)
    (h : Uncarried column (skips.map Prod.snd ++ texts)) :
    ∃ column', Uncarried column' texts ∧
      findName buff (skips.map Prod.fst ++ ls) column = (findName buff ls column').map fun r =>
        (r.1 + skips.length, r.2) := by
  induction skips generalizing column with
  | nil => exact ⟨column, h, by simp⟩
  | cons e skips ih =>
    obtain ⟨⟨more, hmore⟩, hstrings⟩ := List.forall_mem_cons.mp hstrings
    obtain ⟨hline, hlines⟩ := List.forall_mem_cons.mp hlines
    obtain ⟨hskip, hskips⟩ := List.forall_mem_cons.mp hskips
    obtain ⟨hcolumn, hrest⟩ := h
    rw [hskip] at hrest
    obtain ⟨column', hcarried, hfind⟩ := ih hstrings hlines hskips hrest
    refine ⟨column', hcarried, ?_⟩
    have hnil : tokenOf (behindBlanks e.2) = [] := by
      have hread := contentRead_skipped_iff.mpr hskip
      unfold contentRead at hread
      dsimp only at hread
      split_ifs at hread with h
      exact h
    rw [List.map_cons, List.cons_append, findName, hmore, getNextToken_first hline more hcolumn,
      hnil, List.length_nil, Nat.add_zero, Option.bind_some]
    dsimp only
    rw [if_pos rfl, hfind, Option.map_map]
    rfl

theorem getNextProperty_none {lines : List PropertiesLine} (hstatus : p.status = .ok)
    (hlines : p.lines = some lines)
    (hl : lines[p.nextLine]? = none) : p.getNextProperty = some (.error .eof, p) := by
  obtain ⟨status, buff, _, nextLine⟩ := p
  cases hlines
  rw [getNextProperty, if_neg (not_not.mpr hstatus)]
  dsimp only
  rw [hl]

/-- A call that finds a line that has not been handed out. -/
theorem getNextProperty_fresh {lines : List PropertiesLine} {l : PropertiesLine}
    (hstatus : p.status = .ok) (hlines : p.lines = some lines)
    (hl : lines[p.nextLine]? = some l) (hname : l.name = none) :
    p.getNextProperty = (findName p.propertiesBuff (lines.drop p.nextLine) 0).bind
      fun (passed, nameStart, nameEnd) =>
      let p := { p with nextLine := p.nextLine + passed }
      match lines[p.nextLine]? with
      | none => some (.error .eof, p)
      | some l => p.getValue lines l nameStart nameEnd := by
  obtain ⟨line, _, value⟩ := l
  cases hname
  rw [getNextProperty, if_neg (not_not.mpr hstatus), hlines]
  dsimp only
  generalize lines[p.nextLine]? = first at hl ⊢
  subst hl
  rfl

theorem Parses.drop (h : Parses p done todo) : ((done ++ todo).map Prod.fst).drop p.nextLine =
    todo.map Prod.fst := by
  have hlength : (done.map Prod.fst).length = p.nextLine := by rw [List.length_map, h.nextLine]
  rw [List.map_append, ← hlength, List.drop_left]

theorem Parses.getElem (h : Parses p done todo) (n : ℕ) :
    ((done ++ todo).map Prod.fst)[p.nextLine + n]? = (todo.map Prod.fst)[n]? := by
  rw [← h.drop, List.getElem?_drop]

/-- The lines a call goes through have been passed then. -/
theorem Parses.passed_skipped {skips es : List (PropertiesLine × List Char)}
    (h : Parses p done (skips ++ es))
    (hskips : ∀ e ∈ skips, contentOf e.2 = .skipped) :
    ∀ d ∈ done ++ skips, Passed p.propertiesBuff d := by
  intro d hd
  rcases List.mem_append.mp hd with hd | hd
  · exact h.passed d hd
  · have hskip := contentRead_skipped_iff.mpr (hskips d hd)
    refine ⟨fun name value hproperty => ?_, fun _ => h.fresh d (List.mem_append_left _ hd)⟩
    rw [hskip] at hproperty
    cases hproperty

theorem Parses.eof (h : Parses p done todo) (hskips : ∀ e ∈ todo, contentOf e.2 = .skipped) :
    Parses { p with nextLine := (done ++ todo).length } (done ++ todo) [] := by
  constructor
  · exact h.status
  · rw [List.append_nil]
    exact h.lines
  · rfl
  · rw [List.append_nil]
    exact h.apart
  · rw [List.append_nil]
    exact h.inLine
  · rw [← List.append_nil todo] at h
    exact h.passed_skipped hskips
  · exact List.forall_mem_nil _

theorem getNextProperty_eof (h : Parses p done todo) (hskips : ∀ e ∈ todo, contentOf e.2 = .skipped)
    (hcarried : Uncarried 0 (todo.map Prod.snd)) :
    p.getNextProperty = some (.error .eof, { p with nextLine := (done ++ todo).length }) := by
  cases todo with
  | nil =>
    have hend : ((done ++ []).map Prod.fst)[p.nextLine]? = none := h.getElem 0
    rw [getNextProperty_none h.status h.lines hend, List.append_nil, ← h.nextLine]
  | cons e todo =>
    have hl : ((done ++ e :: todo).map Prod.fst)[p.nextLine]? = some e.1 := h.getElem 0
    obtain ⟨column, -, hfind⟩ := findName_skipped [] [] (fun e he => (h.fresh e he).2)
      (fun e he => h.inLine e (List.mem_append_right _ he)) hskips
        (by rw [List.append_nil]; exact hcarried)
    rw [List.append_nil] at hfind
    have hend : ((done ++ e :: todo).map Prod.fst)[p.nextLine + (e :: todo).length]? = none :=
      (h.getElem (e :: todo).length).trans (List.getElem?_eq_none (by simp))
    rw [getNextProperty_fresh h.status h.lines hl (h.fresh e List.mem_cons_self).1, h.drop, hfind,
      findName, Option.map_some, Option.bind_some]
    dsimp only
    rw [Nat.zero_add, hend, List.length_append, h.nextLine]

variable {skips es : List (PropertiesLine × List Char)}

structure Meets (p : PropertiesParser) (front : List PropertiesLine)
    (skips : List (PropertiesLine × List Char)) (l : PropertiesLine)
    (text : List Char) (rest : List PropertiesLine) : Prop where
  status : p.status = .ok
  lines : p.lines = some (front ++ (skips.map Prod.fst ++ l :: rest))
  nextLine : p.nextLine = front.length
  strings : ∀ d ∈ skips, HasString p.propertiesBuff d.1.line d.2
  inLine : ∀ d ∈ skips, InLine d.2
  skipped : ∀ d ∈ skips, contentOf d.2 = .skipped
  string : HasString p.propertiesBuff l.line text
  ends : InLine text
  fresh : ∀ first ∈ (skips.map Prod.fst ++ l :: rest).head?, first.name = none
  carried : Uncarried 0 (skips.map Prod.snd ++ [text])

theorem Meets.call {front rest : List PropertiesLine} (h : Meets p front skips l text rest)
    (htoken : tokenOf (behindBlanks text) ≠ []) :
    p.getNextProperty = { p with nextLine := p.nextLine + skips.length }.getValue
      (front ++ (skips.map Prod.fst ++ l :: rest)) l
      (leading text) (leading text + (tokenOf (behindBlanks text)).length) := by
  obtain ⟨column, hcolumn, hfind⟩ :=
    findName_skipped (l :: rest) _ h.strings h.inLine h.skipped h.carried
  have hfirst : ∃ first, (front ++ (skips.map Prod.fst ++ l :: rest))[p.nextLine]? = some first ∧
      first.name = none := by
    have hhead : (front ++ (skips.map Prod.fst ++ l :: rest))[p.nextLine]? =
        (skips.map Prod.fst ++ l :: rest).head? := by
      rw [h.nextLine, List.getElem?_append_right (Nat.le_refl _), Nat.sub_self,
        List.head?_eq_getElem?]
    cases hne : (skips.map Prod.fst ++ l :: rest).head? with
    | none => simp at hne
    | some first => exact ⟨first, hhead.trans hne, h.fresh first hne⟩
  obtain ⟨first, hfirst, hname⟩ := hfirst
  obtain ⟨more, hmore⟩ := h.string
  have hlength : (tokenOf (behindBlanks text)).length ≠ 0 :=
    fun hzero => htoken (List.length_eq_zero_iff.mp hzero)
  have hfound : findName p.propertiesBuff (l :: rest) column = some (0, leading text, leading text +
      (tokenOf (behindBlanks text)).length) := by
    rw [findName, hmore, getNextToken_first h.ends more hcolumn.1, Option.bind_some]
    dsimp only
    rw [if_neg (by omega)]
  have hdrop : (front ++ (skips.map Prod.fst ++ l :: rest)).drop p.nextLine = skips.map Prod.fst ++
      l :: rest := by
    rw [h.nextLine, List.drop_left]
  have hat : (front ++ (skips.map Prod.fst ++ l :: rest))[p.nextLine + skips.length]? = some l := by
    rw [← List.getElem?_drop, hdrop, List.getElem?_append_right (by simp), List.length_map,
      Nat.sub_self]
    rfl
  rw [getNextProperty_fresh h.status h.lines hfirst hname, hdrop, hfind, hfound, Option.map_some,
    Option.bind_some]
  dsimp only
  rw [Nat.zero_add, hat]

theorem Meets.malformed {front rest : List PropertiesLine} (h : Meets p front skips l text rest)
    (hcontent : contentRead text = .malformed) :
    ∃ p', p.getNextProperty = some (.error .err, p') := by
  have htoken : tokenOf (behindBlanks text) ≠ [] := by
    unfold contentRead at hcontent
    dsimp only at hcontent
    split_ifs at hcontent with hnil
    exact hnil
  have hvalue := getValue_malformed (p := { p with nextLine := p.nextLine + skips.length })
    (front ++ (skips.map Prod.fst ++ l :: rest)) h.string h.ends hcontent
  rw [h.call htoken, hvalue]
  exact ⟨_, rfl⟩

theorem Uncarried.left {column : ℕ} {before behind : List (List Char)}
    (h : Uncarried column (before ++ behind)) : Uncarried column before := by
  induction before generalizing column with
  | nil => trivial
  | cons line before ih =>
    obtain ⟨hle, hrest⟩ := h
    refine ⟨hle, ?_⟩
    cases hcontent : contentOf line with
    | skipped =>
      rw [hcontent] at hrest
      exact ih hrest
    | property name value =>
      rw [hcontent] at hrest
      exact ih hrest
    | malformed => trivial

theorem Parses.meets (h : Parses p done (skips ++ e :: es))
    (hskips : ∀ e ∈ skips, contentOf e.2 = .skipped)
    (hcarried : Uncarried 0 (skips.map Prod.snd ++ [e.2])) :
    Meets p (done.map Prod.fst) skips e.1 e.2 (es.map Prod.fst) := by
  have hmem : ∀ d ∈ skips, d ∈ skips ++ e :: es := fun d hd => List.mem_append_left _ hd
  have he : e ∈ skips ++ e :: es := List.mem_append_right _ List.mem_cons_self
  constructor
  · exact h.status
  · rw [h.lines, List.map_append, List.map_append]
    rfl
  · rw [h.nextLine, List.length_map]
  · exact fun d hd => (h.fresh d (hmem d hd)).2
  · exact fun d hd => h.inLine d (List.mem_append_right _ (hmem d hd))
  · exact hskips
  · exact (h.fresh e he).2
  · exact h.inLine e (List.mem_append_right _ he)
  · intro first hfirst
    cases skips with
    | nil =>
      cases hfirst
      exact (h.fresh e List.mem_cons_self).1
    | cons d skips =>
      cases hfirst
      exact (h.fresh d List.mem_cons_self).1
  · exact hcarried

/-- A call that hands out the property of line `e`. -/
theorem getNextProperty_property {name value : List Char} (h : Parses p done (skips ++ e :: es))
    (hskips : ∀ e ∈ skips, contentOf e.2 = .skipped)
    (hcontent : contentRead e.2 = .property name value)
    (hcarried : Uncarried 0 (skips.map Prod.snd ++ [e.2])) :
    ∃ p' l, p.getNextProperty = some (.ok (name, value), p') ∧ Parses p'
      (done ++ skips ++ [(l, e.2)]) es := by
  have he : e ∈ skips ++ e :: es := List.mem_append_right _ List.mem_cons_self
  have htoken : tokenOf (behindBlanks e.2) ≠ [] := by
    obtain ⟨hname, hne, -, -⟩ := contentRead_eq_property hcontent
    rw [hname]
    exact hne
  obtain ⟨buff, a, b, hcut, hvalue⟩ :=
    getValue_property (p := { p with nextLine := p.nextLine + skips.length }) (done.map Prod.fst ++
      (skips.map Prod.fst ++ e.1 :: es.map Prod.fst)) (h.fresh e he).2
      (h.inLine e (List.mem_append_right _ he)) hcontent
  have hassoc : done ++ (skips ++ e :: es) = (done ++ skips) ++ e :: es :=
    (List.append_assoc _ _ _).symm
  have hapart := h.apart
  rw [hassoc, List.map_append, List.pairwise_append, List.map_cons, List.pairwise_cons] at hapart
  obtain ⟨-, ⟨hbehind, -⟩, hfront⟩ := hapart
  have hbefore : ∀ d ∈ done ++ skips, d.1.line + d.2.length < e.1.line := fun d hd =>
    hfront _ (List.mem_map_of_mem hd) _ List.mem_cons_self
  have hafter : ∀ d ∈ es, e.1.line + e.2.length < d.1.line :=
    fun d hd => hbehind _ (List.mem_map_of_mem hd)
  refine ⟨_, ⟨e.1.line, some a, some b⟩, ((h.meets hskips hcarried).call htoken).trans hvalue, ?_⟩
  constructor
  · exact h.status
  · have hlength : (done.map Prod.fst ++ skips.map Prod.fst).length = p.nextLine +
        skips.length := by
      rw [List.length_append, List.length_map, List.length_map, h.nextLine]
    dsimp only
    rw [← List.append_assoc, List.set_append_right _ _ hlength.le, hlength, Nat.sub_self]
    simp only [List.map_append, List.map_cons, List.append_assoc, List.set_cons_zero,
      List.cons_append, List.nil_append]
  · dsimp only
    rw [List.length_append, List.length_append, h.nextLine]
    rfl
  · have hmap : ((done ++ skips ++ [((⟨e.1.line, some a, some b⟩ : PropertiesLine), e.2)] ++ es).map
        fun e : PropertiesLine × List Char => (e.1.line, e.2.length)) =
          (done ++ (skips ++ e :: es)).map fun e => (e.1.line, e.2.length) := by
      simp only [List.map_append, List.map_cons, List.append_assoc, List.cons_append,
        List.nil_append]
    rw [hmap]
    exact h.apart
  · intro d hd
    rw [List.append_assoc] at hd
    rcases List.mem_append.mp hd with hd | hd
    · exact h.inLine d (hassoc ▸ List.mem_append_left _ hd)
    · rcases List.mem_cons.mp hd with rfl | hd
      · exact h.inLine e (List.mem_append_right _ he)
      · exact h.inLine d (hassoc ▸ List.mem_append_right _ (List.mem_cons_of_mem _ hd))
  · intro d hd
    rcases List.mem_append.mp hd with hd | hd
    · apply (h.passed_skipped hskips d hd).mono
      intro i s hle
      exact hcut.others i s (.inr (hle.trans (hbefore d hd).le))
    · rw [List.mem_singleton.mp hd]
      constructor
      · intro name' value' hcontent'
        obtain ⟨rfl, rfl⟩ : name = name' ∧ value = value' := by
          rw [hcontent] at hcontent'
          cases hcontent'
          exact ⟨rfl, rfl⟩
        exact ⟨⟨a, rfl, hcut.atName⟩, ⟨b, rfl, hcut.atValue⟩, hcut.atLine⟩
      · intro hskip
        rw [hcontent] at hskip
        cases hskip
  · intro d hd
    obtain ⟨hname, hline⟩ := h.fresh d (List.mem_append_right _ (List.mem_cons_of_mem _ hd))
    exact ⟨hname, hcut.others _ _ (.inl (hafter d hd)) hline⟩

end

end PropertiesParser

end TraceDecoder
