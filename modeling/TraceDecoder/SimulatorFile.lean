import Mathlib.Data.List.TakeWhile
import TraceDecoder.SimulatorLines

/-!
# Reading a simulator log

The loop that finds the lines of a file begins at its second character. What it finds is right only
where the first line is empty without its first character and with it.
-/

namespace TraceDecoder

def textLines : List Char → List (List Char)
  | [] => []
  | c :: f =>
    if c = '\n' then [] :: textLines f
    else match textLines f with
      | [] => [[c]]
      | text :: texts => (c :: text) :: texts

def upToReturn (text : List Char) : List Char := text.takeWhile fun c => c ≠ '\r' ∧ c ≠ '\n'

theorem textLines_cons {c : Char} (hc : c ≠ '\n') {f : List Char} {text : List Char}
    {texts : List (List Char)}
    (h : textLines f = text :: texts) : textLines (c :: f) = (c :: text) :: texts := by
  rw [textLines, if_neg hc, h]

theorem textLines_ne_nil {f : List Char} (h : f ≠ []) : textLines f ≠ [] := by
  obtain ⟨c, f, rfl⟩ := List.exists_cons_of_ne_nil h
  rw [textLines]
  split_ifs
  · exact List.cons_ne_nil _ _
  · cases textLines f <;> exact List.cons_ne_nil _ _

namespace Simulator

/-! ### Lines and pointers -/

/-- The file, and its last line where this has no line feed. -/
theorem exists_fileOf (f : List Char) : ∃ log last, f = fileOf log ++ last ∧ '\n' ∉ last ∧
    (∀ text ∈ log, '\n' ∉ text) ∧
    textLines f = log ++ (if last = [] then [] else [last]) := by
  induction f with
  | nil => exact ⟨[], [], rfl, List.not_mem_nil, fun _ h => absurd h List.not_mem_nil, rfl⟩
  | cons c f ih =>
    obtain ⟨log, last, rfl, hlast, hlog, hlines⟩ := ih
    by_cases hc : c = '\n'
    · subst hc
      refine ⟨[] :: log, last, rfl, hlast, ?_, ?_⟩
      · rintro text (_ | ⟨_, htext⟩)
        · exact List.not_mem_nil
        · exact hlog text htext
      · rw [textLines, if_pos rfl, hlines]
        rfl
    cases log with
    | nil =>
      refine ⟨[], c :: last, rfl, ?_, fun _ h => absurd h List.not_mem_nil, ?_⟩
      · rintro (_ | ⟨_, hmem⟩)
        · exact hc rfl
        · exact hlast hmem
      · rw [textLines, if_neg hc, hlines]
        cases last <;> rfl
    | cons text log =>
      refine ⟨(c :: text) :: log, last, rfl, hlast, ?_, ?_⟩
      · rintro _ (_ | ⟨_, htext⟩)
        · rintro (_ | ⟨_, hmem⟩)
          · exact hc rfl
          · exact hlog text List.mem_cons_self hmem
        · exact hlog _ (List.mem_cons_of_mem _ htext)
      · exact textLines_cons hc hlines

theorem length_lineStarts (s : Bool) (f : List Char) :
    (lineStarts s f).length = if s then (textLines f).length else (textLines f).length - 1 := by
  induction f generalizing s with
  | nil => cases s <;> rfl
  | cons c f ih =>
    by_cases hc : c = '\n'
    · have hrest := ih true
      rw [if_pos rfl] at hrest
      rw [lineStarts, decide_eq_true hc, List.length_append, hrest, textLines, if_pos hc]
      cases s
      · exact Nat.zero_add _
      · exact Nat.add_comm 1 _
    · have hrest := ih false
      rw [if_neg Bool.false_ne_true] at hrest
      have hlength : (textLines (c :: f)).length = (textLines f).length - 1 + 1 := by
        cases hlines : textLines f with
        | nil => rw [textLines, if_neg hc, hlines]; rfl
        | cons text texts => rw [textLines_cons hc hlines]; rfl
      rw [lineStarts, decide_eq_false hc, List.length_append, hrest, hlength]
      cases s
      · exact Nat.zero_add _
      · exact Nat.add_comm 1 _

def content (p : List Char) : List Char := p.takeWhile (· ≠ '\x00')

theorem content_cons_strip (c : Char) (s : List Char) :
    content ((c :: s).map strip) = if strip c = '\x00' then [] else c :: content (s.map strip) := by
  rw [content, List.map_cons, List.takeWhile_cons]
  by_cases hc : strip c = '\x00'
  · rw [if_pos hc, if_neg (by simpa using hc)]
  · have hsame : strip c = c := by
      unfold strip at hc ⊢
      split_ifs at hc ⊢
      · exact absurd rfl hc
      · rfl
    rw [if_neg hc, if_pos (by simpa using hc), hsame]
    rfl

theorem null_notMem_content (p : List Char) : '\x00' ∉ content p := fun h => by
  simpa using List.mem_takeWhile_imp h

/-- It is a line up to its first carriage return or line feed, if that has no null character. -/
theorem content_strip_eq_iff (text : List Char) : content (text.map strip) = upToReturn text ↔
    '\x00' ∉ upToReturn text := by
  constructor
  · intro h
    rw [← h]
    exact null_notMem_content _
  · intro h
    induction text with
    | nil => rfl
    | cons c text ih =>
      rw [content_cons_strip, upToReturn, List.takeWhile_cons]
      by_cases hc : c = '\r' ∨ c = '\n'
      · rw [if_pos (by rw [strip, if_pos hc]), if_neg (by simpa [or_iff_not_imp_left] using hc)]
      · have hstop : (decide (c ≠ '\r' ∧ c ≠ '\n')) = true := decide_eq_true (not_or.mp hc)
        rw [upToReturn, List.takeWhile_cons, if_pos hstop, List.mem_cons, not_or] at h
        rw [if_neg (by rw [strip, if_neg hc]; exact fun heq => h.1 heq.symm), if_pos hstop, ih h.2]
        rfl

theorem content_strip_of_textLines {f text : List Char} {texts : List (List Char)}
    (h : textLines f = text :: texts) :
    content (f.map strip) = content (text.map strip) := by
  induction f generalizing text texts with
  | nil => cases h
  | cons c f ih =>
    rw [content_cons_strip]
    by_cases hc : c = '\n'
    · rw [textLines, if_pos hc] at h
      cases h
      rw [if_pos (by rw [strip, if_pos (.inr hc)])]
      rfl
    cases hlines : textLines f with
    | nil =>
      obtain rfl : f = [] := by_contra fun hne => textLines_ne_nil hne hlines
      rw [textLines, if_neg hc, hlines] at h
      cases h
      rw [← content_cons_strip]
    | cons text' texts' =>
      rw [textLines_cons hc hlines] at h
      cases h
      rw [content_cons_strip, ih hlines]

theorem content_append_null (s more : List Char) : content (s ++ '\x00' :: more) = content s := by
  rw [content, List.takeWhile_append]
  split_ifs with hall
  · have hstop : ('\x00' :: more).takeWhile (· ≠ '\x00') = [] :=
      List.takeWhile_cons_of_neg (by simp)
    rw [hstop, List.append_nil]
    exact ((List.takeWhile_prefix _).eq_of_length hall).symm
  · rfl

theorem holds_pointers {log : List (List Char)} (h : ∀ text ∈ log, '\x00' ∉ upToReturn text) :
    List.Forall₂ (fun p text => '\x00' ∈ p ∧ content p = upToReturn text) (pointers log) log := by
  induction log with
  | nil => exact .nil
  | cons text log ih =>
    refine .cons ⟨List.mem_append_right _ List.mem_cons_self, ?_⟩ (ih fun text htext =>
      h text (List.mem_cons_of_mem _ htext))
    rw [content_append_null]
    exact (content_strip_eq_iff text).mpr (h text List.mem_cons_self)

/-! ### The file -/

/-- The lines are those of the file: each is a string in the buffer with the text up to the first
carriage return or line feed. -/
def HoldsLines (f : List Char) (lines : List (List Char)) : Prop :=
  List.Forall₂ (fun p text => '\x00' ∈ p ∧ content p = upToReturn text) lines (textLines f)

/-- The first line of the file is empty without its first character and with it, and no line has a
null character in its text. -/
def EmptyFirst (f : List Char) : Prop :=
  (∃ c rest, f = '\r' :: c :: rest ∧ strip c = '\x00') ∧ ∀ text ∈ textLines f, '\x00' ∉
    upToReturn text

theorem null_notMem_of_holds {lines texts : List (List Char)}
    (h : List.Forall₂ (fun p text => '\x00' ∈ p ∧ content p = upToReturn text) lines texts) :
    ∀ text ∈ texts, '\x00' ∉ upToReturn text := by
  induction h with
  | nil => exact fun _ h => absurd h List.not_mem_nil
  | @cons p text lines texts hfirst _ ih =>
    rintro _ (_ | ⟨_, htext⟩)
    · rw [← hfirst.2]
      exact null_notMem_content p
    · exact ih _ htext

theorem upToReturn_cons {c : Char} (hr : c ≠ '\r') (hn : c ≠ '\n') (text : List Char) :
    upToReturn (c :: text) = c :: upToReturn text :=
  List.takeWhile_cons_of_pos (decide_eq_true ⟨hr, hn⟩)

theorem emptyFirst_of_holdsLines {f : List Char} (hne : f ≠ [])
    (h : HoldsLines f (lineStarts true f.tail)) : EmptyFirst f := by
  have hnull := null_notMem_of_holds h
  refine ⟨?_, hnull⟩
  obtain ⟨c, g, rfl⟩ := List.exists_cons_of_ne_nil hne
  have hlength := h.length_eq
  rw [List.tail_cons, length_lineStarts, if_pos rfl] at hlength
  by_cases hn : c = '\n'
  · rw [textLines, if_pos hn, List.length_cons] at hlength
    omega
  cases hlines : textLines g with
  | nil =>
    rw [textLines, if_neg hn, hlines] at hlength
    cases hlength
  | cons text texts =>
    cases g with
    | nil => cases hlines
    | cons d g =>
      unfold HoldsLines at h
      rw [textLines_cons hn hlines] at h hnull
      have hfirst : content ((d :: g).map strip) = upToReturn (c :: text) := by
        cases h with
        | cons hfirst _ => exact hfirst.2
      by_cases hr : c = '\r'
      · refine ⟨d, g, by rw [hr], ?_⟩
        rw [hr, content_cons_strip] at hfirst
        by_contra hd
        rw [if_neg hd] at hfirst
        cases hfirst
      · have htext := hnull _ List.mem_cons_self
        rw [upToReturn_cons hr hn] at hfirst htext
        rw [content_strip_of_textLines hlines, (content_strip_eq_iff text).mpr fun h =>
          htext (List.mem_cons_of_mem c h)] at hfirst
        exact absurd (congrArg List.length hfirst) (by rw [List.length_cons]; omega)

theorem holdsLines_of_emptyFirst {f : List Char} {lines : List (List Char)}
    (hread : readFile f = some lines) (h : EmptyFirst f) :
    HoldsLines f lines := by
  obtain ⟨⟨c, rest, rfl, hc⟩, hnull⟩ := h
  obtain ⟨log, last, hfile, hlast, hlog, hlines⟩ := exists_fileOf (c :: rest)
  have hcount : ('\r' :: c :: rest).count '\n' = log.length := by
    rw [List.count_cons_of_ne (by decide), hfile, List.count_append, count_fileOf hlog,
      List.count_eq_zero_of_not_mem hlast, Nat.add_zero]
  have hstarts := length_lineStarts true (c :: rest)
  rw [if_pos rfl, hlines, List.length_append] at hstarts
  simp only [readFile, List.tail_cons, hcount, hstarts] at hread
  have hend : last = [] := by
    by_contra hne
    rw [if_neg hne, List.length_singleton, if_pos (Nat.le_refl _)] at hread
    cases hread
  subst hend
  rw [if_pos rfl, List.length_nil, Nat.add_zero, if_neg (by omega), Option.some.injEq] at hread
  rw [if_pos rfl, List.append_nil] at hlines
  rw [List.append_nil] at hfile
  have hcontent : content ((c :: rest).map strip) = [] := by rw [content_cons_strip, if_pos hc]
  cases log with
  | nil => cases hfile
  | cons text log =>
    rw [textLines_cons (by decide) hlines] at hnull
    rw [HoldsLines, textLines_cons (by decide) hlines, ← hread, hfile, lineStarts_fileOf hlog]
    refine .cons ⟨List.mem_append_right _ List.mem_cons_self, ?_⟩ (holds_pointers fun text htext =>
      hnull text (List.mem_cons_of_mem _ htext))
    rw [content_append_null, ← content_strip_of_textLines hlines, hcontent]
    rfl

def emptyFirstLine : List Char := ['\r', '\n', 'a', '\n']

end Simulator

end TraceDecoder
