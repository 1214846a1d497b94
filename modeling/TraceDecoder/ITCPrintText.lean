import TraceDecoder.ITCPrintRing

/-!
# Text as a queue

The text of a core as a queue of complete lines with the characters behind them, and what the ring
of the core holds of it: every line with a null character behind it. Reading the ring takes the
first line.
-/

namespace TraceDecoder

open RingIndex

def isTerminator (c : Byte) : Bool := c = 0x00 ∨ c = 0x0a ∨ c = 0x0d

/-- The complete messages, without the null characters, and the characters of
the message in progress. -/
structure TextQueue where
  lines : List (List Byte)
  rest : List Byte

namespace TextQueue

variable (t : TextQueue)

def put (c : Byte) : TextQueue :=
  if c = 0x00 then ⟨t.lines ++ [t.rest], []⟩
  else if c = 0x0a ∨ c = 0x0d then ⟨t.lines ++ [t.rest ++ [c]], []⟩
  else ⟨t.lines, t.rest ++ [c]⟩

def write (bytes : List Byte) : TextQueue := bytes.foldl put t

def get : Option (List Byte) × TextQueue :=
  match t.lines with
  | [] => (none, t)
  | line :: lines => (some line, ⟨lines, t.rest⟩)

def flush : Option (List Byte) × TextQueue :=
  match t.lines with
  | [] => if t.rest = [] then (none, t) else (some t.rest, ⟨[], []⟩)
  | line :: lines => (some line, ⟨lines, t.rest⟩)

def content : List Byte := t.lines.flatMap (· ++ [0x00]) ++ t.rest

structure Plain : Prop where
  lines : ∀ line ∈ t.lines, 0x00 ∉ line
  rest : 0x00 ∉ t.rest

/-! ### The text that has been written and handed out -/

/-- Of the characters `w` that have been written, `out` has been handed out and the others are in
the queue. Where a message ends a terminator has been written. -/
structure Accounts (w out : List Byte) : Prop where
  total : out ++ t.lines.flatten ++ t.rest = w.filter (· ≠ 0x00)
  ends : ∀ ls, ls ≠ [] → ls <+: t.lines → ∃ v c, isTerminator c ∧ v ++ [c] <+: w ∧
    out ++ ls.flatten = (v ++ [c]).filter (· ≠ 0x00)

variable {t} {w out : List Byte}

theorem filter_concat (w : List Byte) (c : Byte) :
    (w ++ [c]).filter (· ≠ 0x00) = w.filter (· ≠ 0x00) ++ if c = 0x00 then [] else [c] := by
  rw [List.filter_append]
  by_cases hzero : c = 0x00
  · rw [if_pos hzero, List.filter_cons_of_neg (by rw [decide_eq_true_eq]; exact not_not.mpr hzero),
      List.filter_nil]
  · rw [if_neg hzero, List.filter_cons_of_pos (by rw [decide_eq_true_eq]; exact hzero),
      List.filter_nil]

theorem Accounts.put (h : t.Accounts w out) (c : Byte) : (t.put c).Accounts (w ++ [c]) out := by
  have hends : ∀ ls, ls ≠ [] → ls <+: t.lines →
      ∃ v c', isTerminator c' ∧ v ++ [c'] <+: w ++ [c] ∧ out ++ ls.flatten = (v ++ [c']).filter
        (· ≠ 0x00) := fun ls hls hle => by
    obtain ⟨v, c', hc', hv, heq⟩ := h.ends ls hls hle
    exact ⟨v, c', hc', hv.trans (List.prefix_append _ _), heq⟩
  have hline : ∀ line, isTerminator c → out ++ (t.lines ++ [line]).flatten = (w ++ [c]).filter
      (· ≠ 0x00) → (⟨t.lines ++ [line], []⟩ : TextQueue).Accounts (w ++ [c]) out :=
        fun line hc htotal => by
    refine ⟨by rw [List.append_nil]; exact htotal, fun ls hls hle => ?_⟩
    rcases List.prefix_concat_iff.mp hle with rfl | hle
    · exact ⟨w, c, hc, List.prefix_refl _, htotal⟩
    · exact hends ls hls hle
  have htotal := h.total
  rw [List.append_assoc] at htotal
  rw [TextQueue.put]
  split_ifs with hzero hline'
  · refine hline _ (decide_eq_true (.inl hzero)) ?_
    rw [filter_concat, if_pos hzero, ← htotal, List.flatten_append, List.flatten_singleton,
      List.append_nil]
  · refine hline _ (decide_eq_true (.inr hline')) ?_
    rw [filter_concat, if_neg hzero, ← htotal, List.flatten_append, List.flatten_singleton]
    simp only [List.append_assoc]
  · refine ⟨?_, hends⟩
    rw [filter_concat, if_neg hzero, ← htotal]
    simp only [List.append_assoc]

theorem Accounts.write (h : t.Accounts w out) (bytes : List Byte) : (t.write bytes).Accounts
    (w ++ bytes) out := by
  induction bytes generalizing t w with
  | nil => rwa [List.append_nil]
  | cons c bytes ih =>
    have hrest := ih (h.put c)
    rwa [List.append_assoc] at hrest

theorem Accounts.take {line : List Byte} {lines : List (List Byte)} (h : t.Accounts w out)
    (hlines : t.lines = line :: lines) : (⟨lines, t.rest⟩ : TextQueue).Accounts w (out ++ line) ∧
      ∃ v c, isTerminator c ∧ v ++ [c] <+: w ∧ out ++ line = (v ++ [c]).filter (· ≠ 0x00) := by
  have htotal := h.total
  have hends := h.ends
  rw [hlines] at htotal hends
  refine ⟨⟨?_, fun ls hls hle => ?_⟩, ?_⟩
  · rw [← htotal, List.flatten_cons]
    simp only [List.append_assoc]
  · obtain ⟨v, c, hc, hv, heq⟩ :=
      hends (line :: ls) (List.cons_ne_nil _ _) (List.cons_prefix_cons.mpr ⟨rfl, hle⟩)
    exact ⟨v, c, hc, hv, by rw [← heq, List.flatten_cons, List.append_assoc]⟩
  · obtain ⟨v, c, hc, hv, heq⟩ :=
      hends [line] (List.cons_ne_nil _ _) (List.cons_prefix_cons.mpr ⟨rfl, List.nil_prefix⟩)
    exact ⟨v, c, hc, hv, by rw [← heq, List.flatten_singleton]⟩

end TextQueue

end TraceDecoder
