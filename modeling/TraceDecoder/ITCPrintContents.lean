import TraceDecoder.ITCPrintText

/-!
# The text in a ring

Writing a word appends it to the characters in the ring that have not been read, where there is room
for it; reading takes them up to the next null character.
-/

namespace TraceDecoder

open RingIndex

namespace PrintQueue

variable {q : PrintQueue} {buffSize : ℕ}

def unread (buffSize : ℕ) (q : PrintQueue) : List Byte := cells q.pbuff buffSize q.pbo q.pbi

theorem InRing.unread_put (h : q.InRing buffSize) (c : Byte)
    (hroom : 0 < q.roomInITCPrintQ buffSize) :
    (q.put buffSize c).unread buffSize = q.unread buffSize ++ [c] := by
  have hstore : (q.put buffSize c).pbuff = store q.pbuff q.pbi [c] := by
    funext j
    show (if j = q.pbi then c else q.pbuff j) = _
    by_cases hj : j = q.pbi
    · subst hj
      rw [if_pos rfl, store, if_neg (Nat.lt_irrefl _), Nat.sub_self]
      rfl
    · rw [if_neg hj, store_of_le _ (show j < q.pbi ∨ q.pbi + [c].length ≤
        j by rw [List.length_singleton]; omega)]
  have hpbi : (q.put buffSize c).pbi = shift buffSize q.pbi [c].length := advance_eq h.pbi
  have hdistance := h.roomInITCPrintQ
  rw [unread, hstore, hpbi]
  exact cells_store q.pbuff h.pbo h.pbi (by rw [List.length_singleton]; exact h.pbi)
    (by rw [List.length_singleton]; omega)

theorem InRing.unread_appended (h : q.InRing buffSize) {cs : List Byte}
    (hroom : cs.length ≤ q.roomInITCPrintQ buffSize) :
    (q.putAll buffSize cs).unread buffSize = q.unread buffSize ++ cs := by
  induction cs generalizing q with
  | nil => rw [putAll_nil, List.append_nil]
  | cons c cs ih =>
    rw [List.length_cons] at hroom
    have hput : (q.put buffSize c).InRing buffSize := ⟨advance_lt h.pbi, h.pbo⟩
    rw [putAll_cons, ih hput (by rw [h.room_put c (by omega)]; omega), h.unread_put c (by omega),
      List.append_assoc]
    rfl

/-- The null character behind the text is not part of it. -/
theorem InRing.unread_poke (h : q.InRing buffSize) (c : Byte) : (q.poke c).unread buffSize =
    q.unread buffSize := by
  refine List.map_congr_left fun k hk => if_neg fun heq => ?_
  have hk := List.mem_range.mp hk
  have hpbi := h.pbi
  have hpbo := h.pbo
  change shift buffSize q.pbo k = q.pbi at heq
  change k < distance buffSize q.pbo q.pbi at hk
  have hlt := distance_lt h.pbi h.pbo
  rw [shift_eq hpbo (by omega)] at heq
  rw [distance] at hk hlt
  split_ifs at hk heq hlt <;> omega

theorem readStr_of_cells {text rest : List Byte} {n o : ℕ} (hpbi : q.pbi < buffSize)
    (ho : o < buffSize)
    (hcells : cells q.pbuff buffSize o q.pbi = text ++ rest) (htext : 0x00 ∉ text)
    (hrest : rest.head? = some 0x00 ∨ rest = [] ∧ q.pbuff q.pbi = 0x00) (hn : text.length < n) :
    ∃ o' < buffSize, q.readStr buffSize n o = some (text, o') ∧ cells q.pbuff buffSize o' q.pbi =
      rest := by
  induction text generalizing n o with
  | nil =>
    obtain ⟨n, rfl⟩ : ∃ m, n = m + 1 := ⟨n - 1, by rw [List.length_nil] at hn; omega⟩
    have hnull : q.pbuff o = 0x00 := by
      by_cases heq : o = q.pbi
      · rw [heq, cells_self] at hcells
        rw [heq]
        rcases hrest with hhead | ⟨-, hnull⟩
        · rw [List.nil_append] at hcells
          rw [← hcells] at hhead
          cases hhead
        · exact hnull
      · rw [cells_cons _ ho hpbi heq] at hcells
        rcases hrest with hhead | ⟨hnil, -⟩
        · rw [List.nil_append] at hcells
          rw [← hcells] at hhead
          exact Option.some.inj hhead
        · rw [hnil] at hcells
          cases hcells
    exact ⟨o, ho, by rw [readStr, if_pos hnull], hcells⟩
  | cons c text ih =>
    obtain ⟨n, rfl⟩ : ∃ m, n = m + 1 := ⟨n - 1, by rw [List.length_cons] at hn; omega⟩
    have hne : o ≠ q.pbi := by
      rintro rfl
      rw [cells_self] at hcells
      cases hcells
    rw [cells_cons _ ho hpbi hne] at hcells
    obtain ⟨hc, hcells⟩ := List.cons.inj hcells
    have hzero : c ≠ 0x00 := fun heq => htext (heq ▸ List.mem_cons_self)
    rw [← advance_eq ho] at hcells
    obtain ⟨o', ho', hread, hrest'⟩ :=
      ih (advance_lt ho) hcells (fun hmem => htext (List.mem_cons_of_mem c hmem))
        (show text.length < n by rw [List.length_cons] at hn; omega)
    refine ⟨o', ho', ?_, hrest'⟩
    rw [readStr, hc, if_neg hzero, hread]
    rfl

theorem length_unread_lt (h : q.InRing buffSize) : (q.unread buffSize).length < buffSize := by
  rw [unread, cells, List.length_map, List.length_range]
  exact distance_lt h.pbi h.pbo

/-! ### Words -/

def withNulls (cs : List Byte) : List Byte :=
  cs.flatMap fun c => if c = 0x0a ∨ c = 0x0d then [c, 0x00] else [c]

theorem stored_of_room {cs : List Byte} {room : ℕ} (hroom : 2 * cs.length < room) :
    stored cs room = withNulls cs := by
  induction cs generalizing room with
  | nil => rfl
  | cons c cs ih =>
    rw [List.length_cons] at hroom
    rw [stored, if_pos (by omega), withNulls, List.flatMap_cons, ih (by omega), ih (by omega)]
    split_ifs <;> rfl

theorem length_withNulls_le (cs : List Byte) : (withNulls cs).length ≤ 2 * cs.length := by
  induction cs with
  | nil => exact Nat.le_refl 0
  | cons c cs ih =>
    rw [withNulls, List.flatMap_cons, List.length_append, List.length_cons]
    change _ + (withNulls cs).length ≤ _
    split_ifs
    · rw [List.length_cons, List.length_singleton]
      omega
    · rw [List.length_singleton]
      omega

end PrintQueue

namespace TextQueue

variable {t : TextQueue}

theorem content_put (t : TextQueue) (c : Byte) : (t.put c).content = t.content ++
    PrintQueue.withNulls [c] := by
  rw [put, PrintQueue.withNulls, List.flatMap_singleton]
  by_cases hzero : c = 0x00
  · subst hzero
    rw [if_pos rfl, if_neg (by decide), content, content, List.flatMap_append,
      List.flatMap_singleton]
    simp only [List.append_assoc, List.append_nil]
  · rw [if_neg hzero]
    split_ifs
    · rw [content, content, List.flatMap_append, List.flatMap_singleton]
      simp only [List.append_assoc, List.append_nil]
      rfl
    · rw [content, content]
      simp only [List.append_assoc]

theorem content_write (t : TextQueue) (cs : List Byte) : (t.write cs).content = t.content ++
    PrintQueue.withNulls cs := by
  induction cs generalizing t with
  | nil => exact (List.append_nil _).symm
  | cons c cs ih =>
    have hrest := ih (t.put c)
    rw [content_put, List.append_assoc] at hrest
    refine hrest.trans ?_
    rw [PrintQueue.withNulls, PrintQueue.withNulls, PrintQueue.withNulls, List.flatMap_singleton,
      List.flatMap_cons]

theorem Plain.put (h : t.Plain) (c : Byte) : (t.put c).Plain := by
  have hline : ∀ line, 0x00 ∉ line → (⟨t.lines ++ [line], []⟩ : TextQueue).Plain :=
      fun line hline =>
    ⟨fun l hl => by
      rcases List.mem_append.mp hl with hl | hl
      · exact h.lines l hl
      · rwa [List.mem_singleton.mp hl], List.not_mem_nil⟩
  have hconcat : c ≠ 0x00 → 0x00 ∉ t.rest ++ [c] := fun hc hmem => by
    rcases List.mem_append.mp hmem with hmem | hmem
    · exact h.rest hmem
    · exact hc (List.mem_singleton.mp hmem).symm
  rw [TextQueue.put]
  split_ifs with hzero
  · exact hline _ h.rest
  · exact hline _ (hconcat hzero)
  · exact ⟨h.lines, hconcat hzero⟩

theorem Plain.write (h : t.Plain) (cs : List Byte) : (t.write cs).Plain := by
  induction cs generalizing t with
  | nil => exact h
  | cons c cs ih => exact ih (h.put c)

theorem write_of_not_terminator {cs : List Byte} (hcs : ∀ c ∈ cs, isTerminator c = false) :
    t.write cs = ⟨t.lines, t.rest ++ cs⟩ ∧
    PrintQueue.withNulls cs = cs ∧ 0x00 ∉ cs := by
  induction cs generalizing t with
  | nil => exact ⟨by rw [List.append_nil]; rfl, rfl, List.not_mem_nil⟩
  | cons c cs ih =>
    obtain ⟨hc, hcs⟩ := List.forall_mem_cons.mp hcs
    have hno : ¬ (c = 0x00 ∨ c = 0x0a ∨ c = 0x0d) := of_decide_eq_false hc
    rw [not_or] at hno
    have hput : t.put c = ⟨t.lines, t.rest ++ [c]⟩ := by rw [put, if_neg hno.1, if_neg hno.2]
    obtain ⟨hwrite, hnulls, hzero⟩ := @ih (t.put c) hcs
    refine ⟨?_, ?_, ?_⟩
    · refine hwrite.trans ?_
      rw [hput]
      simp only [List.append_assoc]
      rfl
    · rw [PrintQueue.withNulls, List.flatMap_cons, if_neg hno.2]
      exact congrArg ([c] ++ ·) hnulls
    · rw [List.mem_cons, not_or]
      exact ⟨Ne.symm hno.1, hzero⟩

theorem write_word {cs : List Byte} (hcs : ∀ c ∈ cs, isTerminator c = false) (c : Byte) :
    (t.write (cs ++ [c])).lines.length = t.lines.length + (PrintQueue.withNulls (cs ++ [c])).count
      0x00 ∧
      (PrintQueue.withNulls (cs ++ [c])).count 0x00 = if (t.write (cs ++ [c])).rest = [] then 1
        else 0 := by
  obtain ⟨hwrite, hnulls, hzero⟩ := write_of_not_terminator (t := t) hcs
  have hput : t.write (cs ++ [c]) = put ⟨t.lines, t.rest ++ cs⟩ c := by
    rw [write, List.foldl_append]
    exact congrArg (put · c) hwrite
  have happend : PrintQueue.withNulls (cs ++ [c]) = cs ++ if c = 0x0a ∨ c = 0x0d then [c, 0x00]
      else [c] := by
    rw [PrintQueue.withNulls, List.flatMap_append, List.flatMap_singleton]
    exact congrArg (· ++ _) hnulls
  rw [hput, happend, List.count_append, List.count_eq_zero_of_not_mem hzero, put]
  by_cases h0 : c = 0x00
  · subst h0
    rw [if_pos rfl, if_neg (by decide), if_pos rfl, List.length_append]
    exact ⟨rfl, rfl⟩
  · rw [if_neg h0]
    by_cases hline : c = 0x0a ∨ c = 0x0d
    · rw [if_pos hline, if_pos hline, List.count_cons_of_ne h0, if_pos rfl, List.length_append]
      exact ⟨rfl, rfl⟩
    · have hne : t.rest ++ cs ++ [c] ≠ [] :=
        List.append_ne_nil_of_right_ne_nil _ (List.cons_ne_nil c [])
      rw [if_neg hline, if_neg hline, List.count_cons_of_ne h0, if_neg hne]
      exact ⟨rfl, rfl⟩

end TextQueue

end TraceDecoder
