import TraceDecoder.PropertiesGrammar

/-!
# The tokens of a line

A line that stands in the buffer is read token by token; the name and the value are cut out of it by
null characters.
-/

namespace TraceDecoder

namespace PropertiesParser

/-! ### Strings in the buffer -/

def HasString (buff : List Char) (i : ℕ) (s : List Char) : Prop :=
  ∃ more, buff.drop i = s ++ '\x00' :: more

section

variable {buff s : List Char} {i k : ℕ}

/-- A null character outside of a string changes nothing of it. -/
theorem HasString.set (h : HasString buff i s) (hk : k < i ∨ i + s.length ≤ k) :
    HasString (buff.set k '\x00') i s := by
  obtain ⟨more, hmore⟩ := h
  rcases hk with hk | hk
  · refine ⟨more, ?_⟩
    rw [List.drop_set_of_lt hk, hmore]
  · rw [HasString, List.drop_set, if_neg (by omega), hmore, List.set_append_right _ _ (by omega)]
    cases k - i - s.length with
    | zero => exact ⟨more, rfl⟩
    | succ n => exact ⟨more.set n '\x00', rfl⟩

theorem HasString.take (h : HasString buff i s) {n : ℕ} (hn : n ≤ s.length) :
    HasString (buff.set (i + n) '\x00') i (s.take n) := by
  obtain ⟨more, hmore⟩ := h
  have hsplit : s ++ '\x00' :: more = s.take n ++ (s.drop n ++ '\x00' :: more) := by
    rw [← List.append_assoc, List.take_append_drop]
  have hlength : (s.take n).length = n := List.length_take_of_le hn
  rw [HasString, List.drop_set, if_neg (by omega), hmore, hsplit, List.set_append_right
    _ _ (by omega), hlength, Nat.add_sub_cancel_left, Nat.sub_self]
  cases s.drop n with
  | nil => exact ⟨more, rfl⟩
  | cons c b => exact ⟨b ++ '\x00' :: more, rfl⟩

theorem HasString.drop (h : HasString buff i s) {n : ℕ} (hn : n ≤ s.length) :
    HasString buff (i + n) (s.drop n) := by
  obtain ⟨more, hmore⟩ := h
  refine ⟨more, ?_⟩
  rw [← List.drop_drop, hmore, List.drop_append_of_le_length hn]

theorem stringAt_eq (h : HasString buff i s) (hs : InLine s) : stringAt buff i = s := by
  obtain ⟨more, hmore⟩ := h
  rw [stringAt, hmore]
  apply CString.takeWhile_append_stop
  · intro c hc
    have hnull := hs c hc
    simp only [List.mem_cons, not_or] at hnull
    exact decide_eq_true hnull.1
  · intro c hc
    cases hc
    decide

end

/-! ### Tokens -/

section

variable {line more : List Char}

theorem skipBlanks_text (s more : List Char) :
    skipBlanks (s ++ '\x00' :: more) = some (leading s) := by
  induction s with
  | nil => rfl
  | cons c s ih =>
    rw [List.cons_append, skipBlanks, leading, List.takeWhile_cons]
    by_cases hc : IsBlank c
    · rw [if_pos hc.symm, ih, if_pos (decide_eq_true hc)]
      rfl
    · rw [if_neg fun h => hc h.symm, if_neg fun h => hc (of_decide_eq_true h)]
      rfl

theorem scanToken_text {s : List Char} (hs : InLine s) (more : List Char) :
    scanToken false (s ++ '\x00' :: more) = some (s.takeWhile (· ∉ [' ', '#', '='])).length := by
  induction s with
  | nil => rfl
  | cons c s ih =>
    have hc := hs c List.mem_cons_self
    simp only [List.mem_cons, List.not_mem_nil, or_false, not_or] at hc
    rw [List.cons_append, scanToken, List.takeWhile_cons, ih fun d hd =>
      hs d (List.mem_cons_of_mem c hd)]
    by_cases hstop : c = ' ' ∨ c = '#'
    · rcases hstop with rfl | rfl
      · rfl
      · rfl
    · by_cases hequals : c = '='
      · subst hequals
        rfl
      · have hgo : c ∉ [' ', '#', '\x00', '\n', '\r'] := by
          simp only [List.mem_cons, List.not_mem_nil, or_false]; tauto
        have hword : decide (c ∉ [' ', '#', '=']) = true := by
          simp only [List.mem_cons, List.not_mem_nil, or_false, decide_eq_true_eq]; tauto
        rw [if_neg hgo, if_neg hequals, if_pos hword]
        rfl

theorem scanToken_start {s : List Char} (hs : InLine s) (more : List Char) :
    scanToken true (s ++ '\x00' :: more) = some (tokenOf s).length := by
  cases s with
  | nil => rfl
  | cons c s =>
    by_cases hequals : c = '='
    · rw [List.cons_append, scanToken, tokenOf, hequals]
      rfl
    · have hhead : (c :: s).head? ≠ some '=' := fun h => hequals (Option.some.inj h)
      rw [tokenOf, if_neg hhead, ← scanToken_text hs more, List.cons_append, scanToken, scanToken,
        if_neg hequals, if_neg hequals]

theorem leading_le (s : List Char) : leading s ≤ s.length := (List.takeWhile_prefix _).length_le

theorem drop_leading (s : List Char) : s.drop (leading s) = behindBlanks s :=
  drop_length_takeWhile _

theorem getNextToken_text (hline : InLine line) (more : List Char) {column : ℕ}
    (hcolumn : column ≤ line.length) :
    getNextToken (line ++ '\x00' :: more) column =
      some (column + leading (line.drop column),
        column + leading (line.drop column) +
            (tokenOf (behindBlanks (line.drop column))).length) := by
  have hdrop : (line ++ '\x00' :: more).drop column = line.drop column ++ '\x00' :: more :=
    List.drop_append_of_le_length hcolumn
  have htext : (line ++ '\x00' :: more).drop (column + leading (line.drop column)) =
      behindBlanks (line.drop column) ++ '\x00' :: more := by
    rw [← List.drop_drop, hdrop, List.drop_append_of_le_length (leading_le _), drop_leading]
  have hhead : (line ++ '\x00' :: more)[column + leading (line.drop column)]? =
      (behindBlanks (line.drop column) ++ '\x00' :: more).head? := by
    rw [← htext, List.head?_drop]
  have hscan := scanToken_start (hline.drop column).behindBlanks more
  rw [getNextToken, hdrop, skipBlanks_text, Option.bind_some]
  dsimp only
  rw [hhead, htext, hscan]
  have htext := (hline.drop column).behindBlanks
  cases hbehind : behindBlanks (line.drop column) with
  | nil => rfl
  | cons c text =>
    have hc := htext c (by rw [hbehind]; exact List.mem_cons_self)
    simp only [List.mem_cons, List.not_mem_nil, or_false, not_or] at hc
    rw [List.cons_append, List.head?_cons]
    split
    · next heq =>
      cases heq
      rfl
    · next heq => exact absurd (Option.some.inj heq) hc.1
    · next heq => exact absurd (Option.some.inj heq) hc.2.2
    · next heq => exact absurd (Option.some.inj heq) hc.2.1
    · rfl

/-- A column that is no further than the blanks makes no difference. -/
theorem drop_column {column : ℕ} (hcolumn : column ≤ leading line) :
    column + leading (line.drop column) = leading line ∧ behindBlanks (line.drop column) =
      behindBlanks line := by
  have hsplit : line = line.takeWhile (IsBlank ·) ++ behindBlanks line :=
    (blanks_append_behindBlanks line).symm
  have hblanks : ∀ c ∈ (line.takeWhile (IsBlank ·)).drop column, decide (IsBlank c) = true :=
    fun c hc => decide_eq_true (blank_of_mem (List.mem_of_mem_drop hc))
  have hend : ∀ c ∈ (behindBlanks line).head?, decide (IsBlank c) = false :=
    fun c hc => decide_eq_false (not_blank_of_head _ c hc)
  have hdrop : line.drop column = (line.takeWhile (IsBlank ·)).drop column ++ behindBlanks line :=
    (congrArg (List.drop column) hsplit).trans (List.drop_append_of_le_length hcolumn)
  rw [hdrop]
  constructor
  · rw [leading, CString.takeWhile_append_stop hblanks hend, List.length_drop]
    exact Nat.add_sub_of_le hcolumn
  · exact CString.dropWhile_append_stop hblanks hend

theorem getNextToken_first (hline : InLine line) (more : List Char) {column : ℕ}
    (hcolumn : column ≤ leading line) :
    getNextToken (line ++ '\x00' :: more) column = some
      (leading line, leading line + (tokenOf (behindBlanks line)).length) := by
  obtain ⟨hleading, hbehind⟩ := drop_column hcolumn
  rw [getNextToken_text hline more (hcolumn.trans (leading_le line)), hleading, hbehind]

end

/-! ### Values -/

/-- What the writes for a property in a line leave in the buffer. -/
structure Cut (line : ℕ) (text name value : List Char) (buff buff' : List Char) (a b : ℕ) :
    Prop where
  others : ∀ i s, line + text.length < i ∨ i + s.length ≤ line → HasString buff i s →
    HasString buff' i s
  atName : HasString buff' a name ∧ a + name.length ≤ line + text.length
  atValue : HasString buff' b value ∧ b + value.length ≤ line + text.length
  atLine : HasString buff' line (text.takeWhile (IsBlank ·) ++ name) ∧
    (text.takeWhile (IsBlank ·) ++ name).length ≤ text.length

variable {p : PropertiesParser} {l : PropertiesLine} {text : List Char}

theorem contentRead_eq_property {name value : List Char}
    (h : contentRead text = .property name value) :
    tokenOf (behindBlanks text) = name ∧ name ≠ [] ∧ (behindToken (behindBlanks text)).head? =
      some '=' ∧
      tokenOf (behindBlanks (behindToken (behindBlanks text)).tail) = value := by
  unfold contentRead at h
  dsimp only at h
  split_ifs at h with hnil hequals
  cases h
  exact ⟨rfl, hnil, hequals, rfl⟩

theorem tokenOf_start (s : List Char) : tokenOf s <+: s := by
  unfold tokenOf
  split_ifs with h
  · obtain ⟨rest, rfl⟩ := List.head?_eq_some_iff.mp h
    exact ⟨rest, rfl⟩
  · exact List.takeWhile_prefix _

theorem drop_name : text.drop (leading text + (tokenOf (behindBlanks text)).length) =
    (behindBlanks text).drop (tokenOf (behindBlanks text)).length := by
  rw [← List.drop_drop, drop_leading]

theorem name_le (text : List Char) :
    leading text + (tokenOf (behindBlanks text)).length ≤ text.length := by
  have htoken := (tokenOf_start (behindBlanks text)).length_le
  have hlength := congrArg List.length (blanks_append_behindBlanks text)
  rw [List.length_append] at hlength
  unfold leading
  omega

theorem take_name (text : List Char) :
    text.take (leading text + (tokenOf (behindBlanks text)).length) =
    text.takeWhile (IsBlank ·) ++ tokenOf (behindBlanks text) := by
  obtain ⟨rest, hrest⟩ := tokenOf_start (behindBlanks text)
  have hsplit : text = (text.takeWhile (IsBlank ·) ++ tokenOf (behindBlanks text)) ++ rest := by
    rw [List.append_assoc, hrest, blanks_append_behindBlanks]
  have hlength : leading text + (tokenOf (behindBlanks text)).length =
      (text.takeWhile (IsBlank ·) ++ tokenOf (behindBlanks text)).length :=
    (List.length_append).symm
  rw [hlength]
  exact (congrArg (List.take _) hsplit).trans List.take_left

/-- The second token of a line begins with what is behind the first. -/
theorem getNextToken_second (hline : InLine text) (more : List Char) :
    ∃ eqStart, leading text + (tokenOf (behindBlanks text)).length ≤ eqStart ∧
      eqStart ≤ text.length ∧
      text.drop eqStart = behindToken (behindBlanks text) ∧
      getNextToken (text ++ '\x00' :: more) (leading text + (tokenOf (behindBlanks text)).length) =
        some (eqStart, eqStart + (tokenOf (behindToken (behindBlanks text))).length) := by
  have htoken := getNextToken_text hline more (name_le text)
  rw [drop_name] at htoken
  have hle := leading_le ((behindBlanks text).drop (tokenOf (behindBlanks text)).length)
  rw [← drop_name, List.length_drop] at hle
  have hname := name_le text
  rw [drop_name] at hle
  refine ⟨_, Nat.le_add_right _ _, ?_, ?_, htoken⟩
  · omega
  · rw [← List.drop_drop, drop_name, drop_leading]
    rfl

theorem head_text (more : List Char) {i : ℕ} (hi : i ≤ text.length) :
    (text ++ '\x00' :: more)[i]? = (text.drop i ++ '\x00' :: more).head? := by
  rw [← List.drop_append_of_le_length hi, List.head?_drop]

theorem exists_tokens {name value : List Char} (hline : InLine text)
    (h : contentRead text = .property name value) (more : List Char) :
    ∃ eqStart valueStart, leading text + name.length ≤ eqStart ∧ eqStart < valueStart ∧
      getNextToken (text ++ '\x00' :: more) (leading text + name.length) = some
        (eqStart, eqStart + 1) ∧
      (text ++ '\x00' :: more)[eqStart]? = some '=' ∧
      getNextToken (text ++ '\x00' :: more) (eqStart + 1) = some
        (valueStart, valueStart + value.length) ∧
      valueStart + value.length ≤ text.length ∧ value <+: text.drop valueStart := by
  obtain ⟨rfl, -, hequals, rfl⟩ := contentRead_eq_property h
  obtain ⟨eqStart, hle, hlength, hdrop, htoken⟩ := getNextToken_second hline more
  obtain ⟨rest, hrest⟩ := List.head?_eq_some_iff.mp hequals
  rw [hrest] at hdrop htoken
  have hlt : eqStart < text.length := by
    by_contra hge
    rw [List.drop_eq_nil_of_le (Nat.not_lt.mp hge)] at hdrop
    cases hdrop
  have hbehind : text.drop (eqStart + 1) = rest := by rw [← List.drop_drop, hdrop]; rfl
  have hthird := getNextToken_text hline more (Nat.succ_le_of_lt hlt)
  rw [Nat.succ_eq_add_one, hbehind] at hthird
  have hvalue : text.drop (eqStart + 1 + leading rest) = behindBlanks rest := by
    rw [← List.drop_drop, hbehind, drop_leading]
  have hbegins := tokenOf_start (behindBlanks rest)
  have hbound := hbegins.length_le
  have hblanks := leading_le rest
  have hvalueLength : (behindBlanks rest).length = text.length - (eqStart + 1 + leading rest) := by
    rw [← hvalue, List.length_drop]
  have hrestLength : rest.length = text.length - (eqStart + 1) := by
    rw [← hbehind, List.length_drop]
  rw [hrest, List.tail_cons]
  refine ⟨eqStart, eqStart + 1 + leading rest, hle, by omega, htoken, ?_, hthird, ?_, ?_⟩
  · rw [head_text more hlength, hdrop]
    rfl
  · omega
  · rw [hvalue]
    exact hbegins

/-! ### The rest of a call -/

/-- A line that is read as malformed is a syntax error. -/
theorem getValue_malformed (lines : List PropertiesLine)
    (htext : HasString p.propertiesBuff l.line text) (hline : InLine text)
    (h : contentRead text = .malformed) :
    p.getValue lines l (leading text) (leading text + (tokenOf (behindBlanks text)).length) =
      some p.syntaxError := by
  obtain ⟨more, hmore⟩ := htext
  obtain ⟨eqStart, -, hlength, hdrop, htoken⟩ := getNextToken_second hline more
  have hequals : (text ++ '\x00' :: more)[eqStart]? ≠ some '=' := by
    rw [head_text more hlength, hdrop]
    unfold contentRead at h
    dsimp only at h
    split_ifs at h with hnil hhead
    cases hbehind : behindToken (behindBlanks text) with
    | nil => simp
    | cons c rest =>
      rw [hbehind] at hhead
      exact hhead
  unfold getValue
  dsimp only
  rw [hmore, htoken, Option.bind_some, if_neg (by omega)]
  dsimp only
  rw [if_pos (.inr (.inr hequals))]

theorem getValue_property (lines : List PropertiesLine) {name value : List Char}
    (htext : HasString p.propertiesBuff l.line text) (hline : InLine text)
    (h : contentRead text = .property name value) :
    ∃ buff a b, Cut l.line text name value p.propertiesBuff buff a b ∧
      p.getValue lines l (leading text) (leading text + (tokenOf (behindBlanks text)).length) =
        some (.ok (name, value), { p with
          propertiesBuff := buff
          lines := some (lines.set p.nextLine { l with name := some a, value := some b })
          nextLine := p.nextLine + 1 }) := by
  obtain ⟨more, hmore⟩ := id htext
  obtain ⟨eqStart, valueStart, hle, hlt, hsecond, hequals, hthird, hvalue, hbegins⟩ :=
    exists_tokens hline h more
  obtain ⟨rfl, -, -, -⟩ := contentRead_eq_property h
  have hnameLe := name_le text
  have hcut : Cut l.line text (tokenOf (behindBlanks text)) value p.propertiesBuff
      ((p.propertiesBuff.set (l.line + (leading text + (tokenOf (behindBlanks text)).length))
        '\x00').set (l.line + (valueStart + value.length)) '\x00') (l.line + leading text)
          (l.line + valueStart) := by
    constructor
    · intro i s hi hs
      exact (hs.set (by omega)).set (by omega)
    · have hstart := htext.drop (leading_le text)
      rw [drop_leading] at hstart
      have hname := hstart.take (tokenOf_start _).length_le
      rw [← List.prefix_iff_eq_take.mp (tokenOf_start _), Nat.add_assoc] at hname
      exact ⟨hname.set (by omega), by omega⟩
    · have hstart := (htext.drop (Nat.le_of_add_right_le hvalue)).set
        (k := l.line + (leading text + (tokenOf (behindBlanks text)).length)) (.inl (by omega))
      have hcut := hstart.take hbegins.length_le
      rw [← List.prefix_iff_eq_take.mp hbegins, Nat.add_assoc] at hcut
      exact ⟨hcut, by omega⟩
    · have hstart := htext.take hnameLe
      rw [take_name] at hstart
      have hlength := congrArg List.length (take_name text)
      rw [List.length_take_of_le hnameLe] at hlength
      exact ⟨hstart.set (by omega), by omega⟩
  have hnameLine : InLine (tokenOf (behindBlanks text)) :=
    fun c hc => hline.behindBlanks c ((tokenOf_start _).subset hc)
  have hvalueLine : InLine value := fun c hc => hline.drop _ c (hbegins.subset hc)
  refine ⟨_, _, _, hcut, ?_⟩
  unfold getValue
  dsimp only
  rw [hmore, hsecond, Option.bind_some, if_neg (by omega)]
  dsimp only
  rw [hthird, Option.map_some, if_neg (by rw [hequals]; simp)]
  dsimp only
  rw [if_neg (by omega), stringAt_eq hcut.atName.1 hnameLine, stringAt_eq hcut.atValue.1 hvalueLine]

end PropertiesParser

end TraceDecoder
