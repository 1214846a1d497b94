import TraceDecoder.PropertiesParser
import TraceDecoder.SimulatorFile

/-!
# The lines of a properties file

A line is a name, an equals sign and a value, or it is empty but for blanks and a comment. The
tokens that the code cuts are others: a tab ends none of them, and an equals sign can be one.
-/

namespace TraceDecoder

namespace PropertiesParser

open CString

/-! ### The grammar -/

def IsBlank (c : Char) : Prop := c = ' ' ∨ c = '\t'

instance : DecidablePred IsBlank := fun c => inferInstanceAs (Decidable (c = ' ' ∨ c = '\t'))

def IsWord (c : Char) : Prop := c ∉ [' ', '\t', '#', '=', '\r', '\n']

instance : DecidablePred IsWord :=
  fun c => inferInstanceAs (Decidable (c ∉ [' ', '\t', '#', '=', '\r', '\n']))

inductive LineContent
  | skipped
  | property (name value : List Char)
  | malformed
  deriving DecidableEq

def behindBlanks (text : List Char) : List Char := text.dropWhile (IsBlank ·)

def leading (text : List Char) : ℕ := (text.takeWhile (IsBlank ·)).length

def contentOf (line : List Char) : LineContent :=
  let text := behindBlanks line
  if text = [] ∨ text.head? = some '#' then .skipped
  else
    let name := text.takeWhile (IsWord ·)
    let rest := behindBlanks (text.dropWhile (IsWord ·))
    if name ≠ [] ∧ rest.head? = some '=' then .property name ((behindBlanks rest.tail).takeWhile
      (IsWord ·)) else .malformed

def linesOf (file : List Char) : List (List Char) := (textLines file).map upToReturn

def expected : List (List Char) → List Property
  | [] => [.error .eof]
  | line :: lines =>
    match contentOf line with
    | .skipped => expected lines
    | .property name value => .ok (name, value) :: expected lines
    | .malformed => [.error .err]

/-! ### Tokens -/

/-- What the code takes for the token at the start of a text: an equals sign, or what is in front of
a space, a `#` or an equals sign. -/
def tokenOf (text : List Char) : List Char :=
  if text.head? = some '=' then ['='] else text.takeWhile (· ∉ [' ', '#', '='])

def behindToken (text : List Char) : List Char := behindBlanks (text.drop (tokenOf text).length)

def contentRead (line : List Char) : LineContent :=
  let text := behindBlanks line
  if tokenOf text = [] then .skipped
  else if (behindToken text).head? = some '=' then .property (tokenOf text)
    (tokenOf (behindBlanks (behindToken text).tail))
  else .malformed

def PlainToken (token : List Char) : Prop := token ≠ ['='] ∧ '\t' ∉ token

/-- Where the token behind the first is an equals sign, neither the first nor the third is one, and
they have no tabs. -/
def Plain (line : List Char) : Prop :=
  let text := behindBlanks line
  tokenOf text ≠ [] → (behindToken text).head? = some '=' →
    PlainToken (tokenOf text) ∧ PlainToken (tokenOf (behindBlanks (behindToken text).tail))

def InLine (text : List Char) : Prop := ∀ c ∈ text, c ∉ ['\x00', '\r', '\n']

section

variable {text line : List Char}

theorem not_of_head_dropWhile (p : Char → Bool) : ∀ c ∈ (text.dropWhile p).head?, p c = false := by
  intro c hc
  have hnot := List.head?_dropWhile_not p text
  rw [Option.mem_def.mp hc] at hnot
  exact hnot

theorem not_blank_of_head (text : List Char) : ∀ c ∈ (behindBlanks text).head?, ¬ IsBlank c := by
  intro c hc
  exact of_decide_eq_false (not_of_head_dropWhile _ c hc)

theorem blank_of_mem {c : Char} (hc : c ∈ text.takeWhile (IsBlank ·)) : IsBlank c := by
  have hblank := List.mem_takeWhile_imp hc
  exact of_decide_eq_true hblank

theorem word_of_mem {c : Char} (hc : c ∈ text.takeWhile (IsWord ·)) : IsWord c := by
  have hword := List.mem_takeWhile_imp hc
  exact of_decide_eq_true hword

theorem blanks_append_behindBlanks (text : List Char) :
    text.takeWhile (IsBlank ·) ++ behindBlanks text = text := List.takeWhile_append_dropWhile

theorem InLine.behindBlanks (h : InLine text) : InLine (behindBlanks text) :=
  fun c hc => h c ((List.dropWhile_suffix _).subset hc)

theorem InLine.drop (h : InLine text) (n : ℕ) : InLine (text.drop n) :=
  fun c hc => h c (List.mem_of_mem_drop hc)

theorem InLine.tail (h : InLine text) : InLine text.tail :=
  fun c hc => h c (List.mem_of_mem_tail hc)

/-! ### Tokens and words -/

theorem plainToken_words : PlainToken (text.takeWhile (IsWord ·)) := by
  have hall : ∀ c ∈ text.takeWhile (IsWord ·), IsWord c := fun c hc => word_of_mem hc
  constructor
  · intro h
    rw [h] at hall
    exact absurd (hall '=' (List.mem_singleton_self _)) (by decide)
  · intro h
    exact absurd (hall '\t' h) (by decide)

theorem tokenOf_eq_words (htext : InLine text) (hplain : PlainToken (tokenOf text)) :
    tokenOf text = text.takeWhile (IsWord ·) := by
  unfold tokenOf at hplain ⊢
  split_ifs at hplain ⊢ with hequals
  · exact absurd rfl hplain.1
  · have hsplit : text = text.takeWhile (· ∉ [' ', '#', '=']) ++ text.dropWhile
        (· ∉ [' ', '#', '=']) :=
      List.takeWhile_append_dropWhile.symm
    have hwords : ∀ c ∈ text.takeWhile (· ∉ [' ', '#', '=']), decide (IsWord c) = true := by
      intro c hc
      have hgo := List.mem_takeWhile_imp hc
      have hstop : c ∉ [' ', '#', '='] := of_decide_eq_true hgo
      have hline := htext c ((List.takeWhile_prefix _).subset hc)
      have htab : c ≠ '\t' := by
        rintro rfl
        exact hplain.2 hc
      apply decide_eq_true
      simp only [IsWord, List.mem_cons, List.not_mem_nil, or_false, not_or] at hstop hline ⊢
      exact ⟨hstop.1, htab, hstop.2.1, hstop.2.2, hline.2.1, hline.2.2⟩
    have hend : ∀ c ∈ (text.dropWhile (· ∉ [' ', '#', '='])).head?, decide (IsWord c) = false := by
      intro c hc
      have hstop := not_of_head_dropWhile (fun c => decide (c ∉ [' ', '#', '='])) c hc
      have hmem : c ∈ [' ', '#', '='] := not_not.mp (of_decide_eq_false hstop)
      apply decide_eq_false
      intro hword
      exact hword ((List.Sublist.subset (by decide)) hmem)
    conv_rhs => rw [hsplit]
    exact (takeWhile_append_stop hwords hend).symm

theorem tokenOf_eq_nil_iff (hblank : ∀ c ∈ text.head?, ¬ IsBlank c) :
    tokenOf text = [] ↔ text = [] ∨ text.head? = some '#' := by
  cases text with
  | nil => exact iff_of_true rfl (.inl rfl)
  | cons c text =>
    unfold tokenOf
    rw [List.head?_cons]
    by_cases hequals : c = '='
    · subst hequals
      rw [if_pos rfl]
      simp
    · rw [if_neg (fun h => hequals (Option.some.inj h)), List.takeWhile_cons]
      have hspace : c ≠ ' ' := fun h => hblank c rfl (.inl h)
      by_cases hhash : c = '#'
      · subst hhash
        simp
      · have hgo : decide (c ∉ [' ', '#', '=']) = true := by simp [hspace, hhash, hequals]
        rw [hgo]
        simp [hhash]

theorem drop_length_takeWhile (p : Char → Bool) :
    text.drop (text.takeWhile p).length = text.dropWhile p := by
  have hsplit : text = text.takeWhile p ++ text.dropWhile p := List.takeWhile_append_dropWhile.symm
  exact (congrArg (List.drop (text.takeWhile p).length) hsplit).trans List.drop_left

theorem behindToken_eq (htext : InLine text) (hplain : PlainToken (tokenOf text)) :
    behindToken text = behindBlanks (text.dropWhile (IsWord ·)) := by
  rw [behindToken, tokenOf_eq_words htext hplain, drop_length_takeWhile]

/-- The equals sign behind a word is the one behind the token, which is longer if a
tab is behind the word. -/
theorem head_behindToken (hname : text.takeWhile (IsWord ·) ≠ [])
    (hequals : (behindBlanks (text.dropWhile (IsWord ·))).head? = some '=') :
    (behindToken text).head? = some '=' := by
  have hwords : ∀ c ∈ text.takeWhile (IsWord ·), decide (c ∉ [' ', '#', '=']) = true := by
    intro c hc
    apply decide_eq_true
    intro hstop
    exact word_of_mem hc ((List.Sublist.subset (by decide)) hstop)
  obtain ⟨rest, hrest⟩ := List.head?_eq_some_iff.mp hequals
  have hsplit : text = text.takeWhile (IsWord ·) ++
      ((text.dropWhile (IsWord ·)).takeWhile (IsBlank ·) ++ '=' :: rest) := by
    rw [← hrest, blanks_append_behindBlanks, List.takeWhile_append_dropWhile]
  have hblanks : ∀ c ∈ (text.dropWhile (IsWord ·)).takeWhile (IsBlank ·), decide (IsBlank c) =
      true :=
    fun c hc => decide_eq_true (blank_of_mem hc)
  generalize text.takeWhile (IsWord ·) = name at hname hwords hsplit
  generalize (text.dropWhile (IsWord ·)).takeWhile (IsBlank ·) = blanks at hblanks hsplit
  have hmore : text = (name ++ blanks.takeWhile (· ∉ [' ', '#', '='])) ++
      (blanks.dropWhile (· ∉ [' ', '#', '=']) ++ '=' :: rest) := by
    rw [List.append_assoc, ← List.append_assoc (blanks.takeWhile _),
      List.takeWhile_append_dropWhile]
    exact hsplit
  have htoken : tokenOf text = name ++ blanks.takeWhile (· ∉ [' ', '#', '=']) := by
    have hhead : text.head? ≠ some '=' := by
      obtain ⟨c, name, rfl⟩ := List.exists_cons_of_ne_nil hname
      rw [hsplit, List.cons_append, List.head?_cons]
      intro h
      have hc := hwords c List.mem_cons_self
      rw [Option.some.inj h] at hc
      exact absurd hc (by decide)
    rw [tokenOf, if_neg hhead, hmore]
    apply takeWhile_append_stop
    · intro c hc
      rcases List.mem_append.mp hc with hc | hc
      · exact hwords c hc
      · have hgo := List.mem_takeWhile_imp hc
        exact hgo
    · intro c hc
      cases hmid : blanks.dropWhile (· ∉ [' ', '#', '=']) with
      | nil =>
        rw [hmid] at hc
        cases hc
        decide
      | cons d mid =>
        have hstop :=
          not_of_head_dropWhile (fun c => decide (c ∉ [' ', '#', '='])) d (by rw [hmid]; rfl)
        rw [hmid] at hc
        cases hc
        exact hstop
  have hdrop : text.drop (tokenOf text).length = blanks.dropWhile (· ∉ [' ', '#', '=']) ++
      '=' :: rest := by
    rw [htoken]
    exact (congrArg (List.drop _) hmore).trans List.drop_left
  rw [behindToken, hdrop, behindBlanks, dropWhile_append_stop]
  · rfl
  · intro c hc
    exact hblanks c ((List.dropWhile_suffix _).subset hc)
  · intro c hc
    cases hc
    decide

/-! ### Lines -/

theorem contentRead_skipped_iff : contentRead line = .skipped ↔ contentOf line = .skipped := by
  have hnil := tokenOf_eq_nil_iff (not_blank_of_head line)
  unfold contentRead contentOf
  dsimp only
  by_cases hskip : behindBlanks line = [] ∨ (behindBlanks line).head? = some '#'
  · rw [if_pos (hnil.mpr hskip), if_pos hskip]
  · rw [if_neg fun h => hskip (hnil.mp h), if_neg hskip]
    split_ifs
    · exact iff_of_false nofun nofun
    · exact iff_of_false nofun nofun
    · exact iff_of_false nofun nofun
    · exact iff_of_false nofun nofun

theorem contentOf_eq_property {name value : List Char} (h : contentOf line = .property name value) :
    ¬ (behindBlanks line = [] ∨ (behindBlanks line).head? = some '#') ∧ name =
      (behindBlanks line).takeWhile (IsWord ·) ∧ name ≠ [] ∧
      (behindBlanks ((behindBlanks line).dropWhile (IsWord ·))).head? = some '=' ∧
      value =
        (behindBlanks (behindBlanks ((behindBlanks line).dropWhile (IsWord ·))).tail).takeWhile
        (IsWord ·) := by
  unfold contentOf at h
  dsimp only at h
  split_ifs at h with hskip hname
  cases h
  exact ⟨hskip, rfl, hname.1, hname.2, rfl⟩

theorem contentRead_of_property {name value : List Char}
    (h : contentOf line = .property name value) :
    ∃ name' value', contentRead line = .property name' value' := by
  obtain ⟨hskip, rfl, hname, hequals, -⟩ := contentOf_eq_property h
  unfold contentRead
  dsimp only
  rw [if_neg fun hnil => hskip ((tokenOf_eq_nil_iff (not_blank_of_head _)).mp hnil),
    if_pos (head_behindToken hname hequals)]
  exact ⟨_, _, rfl⟩

/-- **A line is read as it should be if and only if its tokens are plain.** -/
theorem contentRead_eq_iff (hline : InLine line) :
    contentRead line = contentOf line ↔ Plain line := by
  have hnil := tokenOf_eq_nil_iff (not_blank_of_head line)
  have htext := hline.behindBlanks
  by_cases hskip : behindBlanks line = [] ∨ (behindBlanks line).head? = some '#'
  · have hskipped : contentOf line = .skipped := if_pos hskip
    rw [hskipped, contentRead_skipped_iff.mpr hskipped]
    exact iff_of_true rfl fun h => absurd (hnil.mpr hskip) h
  have htoken : tokenOf (behindBlanks line) ≠ [] := fun h => hskip (hnil.mp h)
  by_cases hequals : (behindToken (behindBlanks line)).head? = some '='
  · have hread : contentRead line =
        .property (tokenOf (behindBlanks line))
          (tokenOf (behindBlanks (behindToken (behindBlanks line)).tail)) := by
      unfold contentRead
      dsimp only
      rw [if_neg htoken, if_pos hequals]
    have hbehind : InLine (behindBlanks (behindToken (behindBlanks line)).tail) :=
      ((htext.drop _).behindBlanks.tail).behindBlanks
    rw [hread]
    constructor
    · intro h _ _
      obtain ⟨-, hname, -, -, hvalue⟩ := contentOf_eq_property h.symm
      rw [hname, hvalue]
      exact ⟨plainToken_words, plainToken_words⟩
    · intro h
      obtain ⟨hname, hvalue⟩ := h htoken hequals
      have hwords := tokenOf_eq_words htext hname
      have hrest := behindToken_eq htext hname
      rw [hwords] at htoken
      unfold contentOf
      dsimp only
      rw [if_neg hskip, ← hrest, if_pos ⟨htoken, hequals⟩, hwords, tokenOf_eq_words hbehind hvalue]
  · have hread : contentRead line = .malformed := by
      unfold contentRead
      dsimp only
      rw [if_neg htoken, if_neg hequals]
    rw [hread]
    refine iff_of_true ?_ fun _ h => absurd h hequals
    unfold contentOf
    dsimp only
    rw [if_neg hskip, if_neg fun h => hequals (head_behindToken h.1 h.2)]

end

end PropertiesParser

end TraceDecoder
