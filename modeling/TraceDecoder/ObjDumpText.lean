import TraceDecoder.ObjDump

/-!
# The tokens of a text

What the tokeniser of `ObjDump` gives is a function of the text that has not been taken out of the
pipe, however `read` divides it.
-/

namespace TraceDecoder

namespace ObjDump

/-! ### Tokens as functions of the text -/

namespace Text

/-- The characters of `t` in front of the first at which a scan stops, without those it drops. -/
def taken (stop keep : Char → Bool) (t : List Char) : List Char :=
  (t.takeWhile fun c => !stop c).filter keep

def rest (stop : Char → Bool) (t : List Char) : List Char := t.dropWhile fun c => !stop c

def skipWS : List Char → List Char := rest fun c => !(c == ' ' || c == '\r' || c == '\t')

def nextLex (t : List Char) : ObjDumpTokenType × List Char × List Char :=
  match skipWS t with
  | [] => (.eof, [], [])
  | c :: t =>
    match charToken c with
    | some token => (token, [], t)
    | none => (.string, taken endsString (fun _ => true) (c :: t), rest endsString (c :: t))

def restOfLine (t : List Char) : ObjDumpTokenType × List Char × List Char :=
  match skipWS t with
  | [] => (.eof, [], [])
  | c :: t =>
    if c = '\n' then (.eol, [], t)
    else
      (if rest (fun c => c == '\n') (c :: t) = [] then .eof else .eol,
        taken (fun c => c == '\n') (fun c => !(c == '\r')) (c :: t),
          rest (fun c => c == '\n') (c :: t))

def wsLookahead : List Char → Bool
  | [] => false
  | c :: _ => c == ' ' || c == '\t'

def fixedField : List Char → (DQErr × BitVec 32) × List Char
  | [] => ((.err, 0), [])
  | c :: t =>
    if c ≠ ' ' then ((.err, 0), c :: t)
    else if t.length < 7 then ((.err, 0), [])
    else (addFlags symGroups (t.take 7) 0, t.drop 7)

def call (t : List Char) : Call → Result × List Char
  | .getNextLex => (.lex (nextLex t).1 (nextLex t).2.1, (nextLex t).2.2)
  | .getRestOfLine => (.lex (restOfLine t).1 (restOfLine t).2.1, (restOfLine t).2.2)
  | .isWSLookahead => (.lookahead (wsLookahead t), t)
  | .parseFixedField => (.fixedField (fixedField t).1.1 (fixedField t).1.2, (fixedField t).2)

def results (t : List Char) : List Call → List Result
  | [] => []
  | c :: cs => (call t c).1 :: results (call t c).2 cs

end Text

/-! ### The text in the pipe -/

def buffered (s : ObjDump) : List Char := (s.pipeBuffer.take s.endOfBuffer).drop s.pipeIndex

/-- The pipe works, and `t` is the text that is left in the buffer and in the pipe. -/
structure Holds (s : ObjDump) (t : List Char) : Prop where
  pipe : 0 ≤ s.stdoutPipe
  room : s.endOfBuffer ≤ s.pipeBuffer.length
  text : ∃ chunks : List (List Char), s.reads = chunks.map some ∧ (∀ chars ∈ chunks, chars ≠ []) ∧
    s.buffered ++ chunks.flatten = t

variable {s s' : ObjDump} {t : List Char}

/-- The character at the index is the head of what is left in the buffer. -/
theorem buffered_cons (hroom : s.endOfBuffer ≤ s.pipeBuffer.length)
    (hlt : s.pipeIndex < s.endOfBuffer) :
    s.buffered = s.pipeChar :: s.nextIndex.buffered := by
  have hlength : s.pipeIndex < (s.pipeBuffer.take s.endOfBuffer).length := by
    rw [List.length_take]
    omega
  rw [buffered, List.drop_eq_getElem_cons hlength, List.getElem_take, pipeChar, List.getD_eq_getElem
    _ _ (by omega)]
  rfl

theorem buffered_nil (hle : s.endOfBuffer ≤ s.pipeIndex) : s.buffered = [] :=
  List.drop_eq_nil_of_le (Nat.le_trans (List.length_take_le _ _) hle)

theorem fillPipeBuffer_nil (hpipe : 0 ≤ s.stdoutPipe) (hreads : s.reads = []) :
    s.fillPipeBuffer = (.ok, { s with endOfBuffer := 0, pipeIndex := 0 }) := by
  obtain ⟨stdoutPipe, pipeEOF, pipeBuffer, pipeIndex, endOfBuffer, reads, rfl⟩ := s
  simp [fillPipeBuffer, Int.not_lt.mpr hpipe, show reads = [] from hreads]

theorem fillPipeBuffer_cons (hpipe : 0 ≤ s.stdoutPipe) {chars : List Char}
    {reads : List (Option (List Char))} (hreads : s.reads = some chars :: reads) :
    s.fillPipeBuffer = (.ok, { s with
      pipeBuffer := chars ++ s.pipeBuffer.drop chars.length, endOfBuffer := chars.length,
          pipeIndex := 0, reads := reads }) := by
  obtain ⟨stdoutPipe, pipeEOF, pipeBuffer, pipeIndex, endOfBuffer, reads', rfl⟩ := s
  simp [fillPipeBuffer, Int.not_lt.mpr hpipe, show reads' = some chars :: reads from hreads]

/-- At the end of the text a fill finds the end of the file. -/
theorem Holds.refill_nil (h : s.Holds []) : s.endOfBuffer ≤ s.pipeIndex ∧
    ∃ s', s.fillPipeBuffer = (.ok, s') ∧ s'.endOfBuffer = 0 ∧ s'.Holds [] := by
  obtain ⟨hpipe, hroom, chunks, hreads, hchunks, htext⟩ := h
  obtain ⟨hbuffered, hflatten⟩ := List.append_eq_nil_iff.mp htext
  have hnil : chunks = [] := by
    cases chunks with
    | nil => rfl
    | cons chars chunks =>
      exact absurd (List.append_eq_nil_iff.mp hflatten).1 (hchunks chars List.mem_cons_self)
  subst hnil
  refine ⟨Nat.le_of_not_lt fun hlt => ?_, _, fillPipeBuffer_nil hpipe hreads, rfl,
    ⟨hpipe, Nat.zero_le _, [], hreads, hchunks, rfl⟩⟩
  rw [buffered_cons hroom hlt] at hbuffered
  cases hbuffered

/-- Where there is text, the buffer has its first character after a refill. -/
theorem Holds.refill_cons {c : Char} (h : s.Holds (c :: t)) :
    ∃ s', s.refill = (.ok, s') ∧ s'.pipeIndex < s'.endOfBuffer ∧
    s'.pipeChar = c ∧ s'.Holds (c :: t) ∧ s'.nextIndex.Holds t := by
  obtain ⟨hpipe, hroom, chunks, hreads, hchunks, htext⟩ := h
  by_cases hlt : s.pipeIndex < s.endOfBuffer
  · have htext' := htext
    rw [buffered_cons hroom hlt, List.cons_append] at htext'
    obtain ⟨hc, ht⟩ := List.cons.inj htext'
    exact ⟨s, if_neg (Nat.not_le.mpr hlt), hlt, hc, ⟨hpipe, hroom, chunks, hreads, hchunks, htext⟩,
      ⟨hpipe, hroom, chunks, hreads, hchunks, ht⟩⟩
  · have hle := Nat.not_lt.mp hlt
    rw [buffered_nil hle, List.nil_append] at htext
    rcases chunks with _ | ⟨_ | ⟨c', chars⟩, chunks⟩
    · cases htext
    · exact absurd rfl (hchunks [] List.mem_cons_self)
    · obtain ⟨rfl, rfl⟩ := List.cons.inj htext
      have hchunks := fun chars hmem => hchunks chars (List.mem_cons_of_mem _ hmem)
      have hbuffered (buffer : List Char) : ((c' :: chars ++ buffer).take (chars.length + 1)) =
          c' :: chars :=
        @List.take_left Char (c' :: chars) buffer
      refine ⟨_, (if_pos hle).trans (fillPipeBuffer_cons hpipe hreads), Nat.succ_pos _, rfl,
        ⟨hpipe, ?_, chunks, rfl, hchunks, ?_⟩, ⟨hpipe, ?_, chunks, rfl, hchunks, ?_⟩⟩
      · exact Nat.le_trans (Nat.le_add_right _ _) (Nat.le_of_eq List.length_append.symm)
      · exact congrArg (· ++ chunks.flatten) (hbuffered _)
      · exact Nat.le_trans (Nat.le_add_right _ _) (Nat.le_of_eq List.length_append.symm)
      · exact congrArg (fun cs => cs.drop 1 ++ chunks.flatten) (hbuffered _)

section

variable (stop keep : Char → Bool) (lex : List Char)

/-- A scan takes the character at the index, if the buffer has it. -/
theorem scan_of_lt (hlt : s.pipeIndex < s.endOfBuffer) : scan stop keep lex s =
    if stop s.pipeChar then (.found, lex, s)
    else scan stop keep (if keep s.pipeChar then lex ++ [s.pipeChar] else lex) s.nextIndex := by
  obtain ⟨n, hn⟩ : ∃ n, s.endOfBuffer - s.pipeIndex = n + 1 :=
    ⟨s.endOfBuffer - s.pipeIndex - 1, by omega⟩
  have hnext : s.nextIndex.endOfBuffer - s.nextIndex.pipeIndex = n := by
    change s.endOfBuffer - (s.pipeIndex + 1) = n
    omega
  rw [scan, hn]
  unfold scanBuffer
  by_cases hstop : stop s.pipeChar = true
  · rw [if_pos hstop, if_pos hstop]
    rfl
  · rw [if_neg hstop, if_neg hstop]
    conv => rhs; rw [scan, hnext]

theorem scan_of_le (hle : s.endOfBuffer ≤ s.pipeIndex) (hok : s.fillPipeBuffer = (.ok, s')) :
    scan stop keep lex s =
    if s'.endOfBuffer = 0 then (.eof, lex, s') else scan stop keep lex s' := by
  rw [scan, Nat.sub_eq_zero_of_le hle]
  unfold scanBuffer
  dsimp only
  rw [if_neg Bool.false_ne_true, if_pos (congrArg Prod.fst hok), hok]

/-- A scan goes through the text up to a character at which it stops, or to the end. -/
theorem Holds.scan (h : s.Holds t) : ∃ s', scan stop keep lex s =
      (if Text.rest stop t = [] then .eof else .found, lex ++ Text.taken stop keep t, s') ∧
    s'.Holds (Text.rest stop t) ∧ ∀ c t', Text.rest stop t = c :: t' → s'.pipeChar = c ∧
      s'.nextIndex.Holds t' := by
  induction t generalizing s lex with
  | nil =>
    obtain ⟨hle, s', hfill, hzero, hs'⟩ := h.refill_nil
    exact ⟨s', by simp [scan_of_le stop keep lex hle hfill, hzero, Text.rest, Text.taken], hs',
      fun c t' hnil => by cases hnil⟩
  | cons c t ih =>
    obtain ⟨s₁, hrefill, hlt, hc, hs₁, hnext⟩ := h.refill_cons
    have hscan : ObjDump.scan stop keep lex s = ObjDump.scan stop keep lex s₁ := by
      by_cases hle : s.endOfBuffer ≤ s.pipeIndex
      · rw [refill, if_pos hle] at hrefill
        rw [scan_of_le stop keep lex hle hrefill, if_neg (Nat.ne_of_gt (Nat.zero_lt_of_lt hlt))]
      · rw [refill, if_neg hle] at hrefill
        cases hrefill
        rfl
    rw [hscan, scan_of_lt stop keep lex hlt, hc]
    by_cases hstop : stop c = true
    · refine ⟨s₁, by simp [hstop, Text.rest, Text.taken], ?_, fun c' t' hcons => ?_⟩
      · rw [Text.rest, List.dropWhile_cons_of_neg (by simp [hstop])]
        exact hs₁
      · rw [Text.rest, List.dropWhile_cons_of_neg (by simp [hstop])] at hcons
        cases hcons
        exact ⟨hc, hnext⟩
    · have hrest : Text.rest stop (c :: t) = Text.rest stop t :=
        List.dropWhile_cons_of_pos (by simp [hstop])
      have htaken : Text.taken stop keep (c :: t) = (if keep c then [c] else []) ++ Text.taken stop
          keep t := by
        rw [Text.taken, List.takeWhile_cons_of_pos (by simp [hstop]), List.filter_cons]
        split_ifs <;> rfl
      obtain ⟨s', hs', hholds, hchar⟩ := ih (if keep c then lex ++ [c] else lex) hnext
      rw [if_neg hstop, hrest, htaken]
      refine ⟨s', hs'.trans ?_, hholds, hchar⟩
      split_ifs <;> simp

end

/-! ### The calls -/

theorem Holds.stripWS (h : s.Holds t) :
    ∃ s', s.stripWS = (if Text.skipWS t = [] then .eof else .found, [], s') ∧
    s'.Holds (Text.skipWS t) ∧ ∀ c t', Text.skipWS t = c :: t' → s'.pipeChar = c ∧
      s'.nextIndex.Holds t' := by
  obtain ⟨s', hscan, hs'⟩ :=
    h.scan (fun c => !(c == ' ' || c == '\r' || c == '\t')) (fun _ => false) []
  have htaken (stop : Char → Bool) : Text.taken stop (fun _ => false) t = [] := by
    simp [Text.taken]
  rw [htaken] at hscan
  exact ⟨s', hscan, hs'⟩

theorem Holds.getNextLex (h : s.Holds t) :
    ∃ s', s.getNextLex = ((Text.nextLex t).1, (Text.nextLex t).2.1, s') ∧
    s'.Holds (Text.nextLex t).2.2 := by
  obtain ⟨s₁, hstrip, hs₁, hchar⟩ := h.stripWS
  unfold ObjDump.getNextLex Text.nextLex
  rw [hstrip]
  match hskip : Text.skipWS t with
  | [] =>
    rw [hskip] at hs₁
    exact ⟨s₁, rfl, hs₁⟩
  | c :: t' =>
    obtain ⟨hc, hnext⟩ := hchar c t' hskip
    rw [hskip] at hs₁
    rw [if_neg (List.cons_ne_nil c t')]
    dsimp only
    rw [hc]
    cases charToken c with
    | some token => exact ⟨s₁.nextIndex, rfl, hnext⟩
    | none =>
      obtain ⟨s', hscan, hs', -⟩ := hs₁.scan endsString (fun _ => true) []
      dsimp only
      rw [hscan]
      exact ⟨s', by split_ifs <;> rfl, hs'⟩

theorem Holds.getRestOfLine (h : s.Holds t) :
    ∃ s', s.getRestOfLine = ((Text.restOfLine t).1, (Text.restOfLine t).2.1, s') ∧
    s'.Holds (Text.restOfLine t).2.2 := by
  obtain ⟨s₁, hstrip, hs₁, hchar⟩ := h.stripWS
  unfold ObjDump.getRestOfLine Text.restOfLine
  rw [hstrip]
  match hskip : Text.skipWS t with
  | [] =>
    rw [hskip] at hs₁
    exact ⟨s₁, rfl, hs₁⟩
  | c :: t' =>
    obtain ⟨hc, hnext⟩ := hchar c t' hskip
    rw [hskip] at hs₁
    rw [if_neg (List.cons_ne_nil c t')]
    dsimp only
    rw [hc]
    by_cases hnewline : c = '\n'
    · rw [if_pos hnewline, if_pos hnewline]
      exact ⟨s₁.nextIndex, rfl, hnext⟩
    · rw [if_neg hnewline, if_neg hnewline]
      obtain ⟨s', hscan, hs', -⟩ := hs₁.scan (fun c => c == '\n') (fun c => !(c == '\r')) []
      rw [hscan]
      exact ⟨s', by split_ifs <;> rfl, hs'⟩

theorem Holds.isWSLookahead (h : s.Holds t) : ∃ s', s.isWSLookahead = (Text.wsLookahead t, s') ∧
    s'.Holds t := by
  cases t with
  | nil =>
    obtain ⟨hle, s', hfill, hzero, hs'⟩ := h.refill_nil
    exact ⟨s', by simp [ObjDump.isWSLookahead, refill, if_pos hle, hfill, hzero, Text.wsLookahead],
      hs'⟩
  | cons c t =>
    obtain ⟨s', hrefill, hlt, hc, hs', -⟩ := h.refill_cons
    exact ⟨s', by simp [ObjDump.isWSLookahead, hrefill, Nat.ne_of_gt (Nat.zero_lt_of_lt hlt), hc,
      Text.wsLookahead], hs'⟩

theorem Holds.readFlagChars (n : ℕ) (flagChars : List Char) (h : s.Holds t) :
    ∃ s', ObjDump.readFlagChars n flagChars s =
    (if t.length < n then none else some (flagChars ++ t.take n), s') ∧ s'.Holds (t.drop n) := by
  induction n generalizing s t flagChars with
  | zero => exact ⟨s, by simp [ObjDump.readFlagChars], h⟩
  | succ n ih =>
    unfold ObjDump.readFlagChars
    cases t with
    | nil =>
      obtain ⟨hle, s', hfill, hzero, hs'⟩ := h.refill_nil
      exact ⟨s', by simp [refill, if_pos hle, hfill, hzero], hs'⟩
    | cons c t =>
      obtain ⟨s₁, hrefill, hlt, hc, -, hnext⟩ := h.refill_cons
      obtain ⟨s', hread, hs'⟩ := ih (flagChars ++ [c]) hnext
      refine ⟨s', ?_, hs'⟩
      rw [hrefill]
      dsimp only
      rw [if_neg (Nat.ne_of_gt (Nat.zero_lt_of_lt hlt)), hc, hread]
      simp

theorem Holds.parseFixedField (h : s.Holds t) :
    ∃ s', s.parseFixedField = ((Text.fixedField t).1, s') ∧
    s'.Holds (Text.fixedField t).2 := by
  unfold ObjDump.parseFixedField Text.fixedField
  cases t with
  | nil =>
    obtain ⟨hle, s', hfill, hzero, hs'⟩ := h.refill_nil
    exact ⟨s', by simp [refill, if_pos hle, hfill, hzero], hs'⟩
  | cons c t =>
    obtain ⟨s₁, hrefill, hlt, hc, hs₁, hnext⟩ := h.refill_cons
    rw [hrefill]
    dsimp only
    rw [if_neg (Nat.ne_of_gt (Nat.zero_lt_of_lt hlt)), hc]
    by_cases hspace : c = ' '
    · obtain ⟨s', hread, hs'⟩ := hnext.readFlagChars 7 []
      rw [if_neg (not_not.mpr hspace), if_neg (not_not.mpr hspace), hread]
      by_cases hshort : t.length < 7
      · rw [if_pos hshort, if_pos hshort]
        rw [List.drop_eq_nil_of_le (by omega)] at hs'
        exact ⟨s', rfl, hs'⟩
      · rw [if_neg hshort, if_neg hshort]
        exact ⟨s', rfl, hs'⟩
    · rw [if_pos hspace, if_pos hspace]
      exact ⟨s₁, rfl, hs₁⟩

theorem Holds.call (h : s.Holds t) (c : Call) : (s.call c).1 = (Text.call t c).1 ∧
    (s.call c).2.Holds (Text.call t c).2 := by
  cases c with
  | getNextLex =>
    obtain ⟨s', heq, hs'⟩ := h.getNextLex
    unfold ObjDump.call Text.call
    rw [heq]
    exact ⟨rfl, hs'⟩
  | getRestOfLine =>
    obtain ⟨s', heq, hs'⟩ := h.getRestOfLine
    unfold ObjDump.call Text.call
    rw [heq]
    exact ⟨rfl, hs'⟩
  | isWSLookahead =>
    obtain ⟨s', heq, hs'⟩ := h.isWSLookahead
    unfold ObjDump.call Text.call
    rw [heq]
    exact ⟨rfl, hs'⟩
  | parseFixedField =>
    obtain ⟨s', heq, hs'⟩ := h.parseFixedField
    unfold ObjDump.call Text.call
    rw [heq]
    exact ⟨rfl, hs'⟩

theorem Holds.results (h : s.Holds t) (cs : List Call) : s.results cs = Text.results t cs := by
  induction cs generalizing s t with
  | nil => rfl
  | cons c cs ih =>
    obtain ⟨hresult, hholds⟩ := h.call c
    exact congrArg₂ List.cons hresult (ih hholds)

/-- What the calls of `read` give for a text: as many characters as the buffer
holds, at most, and not none. -/
structure Division (t : List Char) where
  chunks : List (List Char)
  nonempty : ∀ chars ∈ chunks, chars ≠ []
  short : ∀ chars ∈ chunks, chars.length ≤ 2048
  flatten : chunks.flatten = t

def Division.single (t : List Char) : Division t where
  chunks := t.map fun c => [c]
  nonempty chars hmem := by
    obtain ⟨c, -, rfl⟩ := List.mem_map.mp hmem
    exact List.cons_ne_nil c []
  short chars hmem := by
    obtain ⟨c, -, rfl⟩ := List.mem_map.mp hmem
    exact Nat.le_add_left 1 2047
  flatten := by
    induction t with
    | nil => rfl
    | cons c t ih => exact congrArg (c :: ·) ih

theorem holds_init (stdoutPipe : ℕ) (pipeBuffer : List Char) (d : Division t) :
    (init stdoutPipe pipeBuffer (d.chunks.map some)).Holds t :=
  ⟨Int.natCast_nonneg _, Nat.zero_le _, d.chunks, rfl, d.nonempty, d.flatten⟩

/-- The tokens, the texts, the look-ahead and the flags do not depend on how the text is divided. -/
theorem results_division (stdoutPipe : ℕ) (pipeBuffer : List Char) (t : List Char)
    (d d' : Division t) (cs : List Call) :
    (init stdoutPipe pipeBuffer (d.chunks.map some)).results cs =
      (init stdoutPipe pipeBuffer (d'.chunks.map some)).results cs :=
  ((holds_init stdoutPipe pipeBuffer d).results cs).trans
    ((holds_init stdoutPipe pipeBuffer d').results cs).symm

end ObjDump

end TraceDecoder
