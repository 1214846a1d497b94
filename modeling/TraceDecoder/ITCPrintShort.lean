import TraceDecoder.ITCPrintFaithful

/-!
# Short destinations

What a get into a destination of a given length leaves. A message that does not fit is not skipped:
all of its characters but one that follow stay in the ring, and the times of the next message belong
to them from then on.
-/

namespace TraceDecoder

open RingIndex

namespace TsLists

def times (l : TsLists) (r : ℕ) : TIMESTAMP × TIMESTAMP :=
  ((l.record r).startTime, (l.record r).endTime)

/-- The list of a core ends with terminated records that have the times given, the oldest first. -/
def Stamped (l : TsLists) (core : ℕ) (ts : List (TIMESTAMP × TIMESTAMP)) : Prop :=
  ∃ newer older : List ℕ, (newer ++ older).Nodup ∧
    (newer ++ older ≠ [] → l.Headed core [] (newer ++ older)) ∧ older.map l.times = ts.reverse ∧
      ∀ r ∈ older, (l.record r).terminated = true

variable {l : TsLists} {core : ℕ} {numMsgs : ℤ} {tm : TIMESTAMP × TIMESTAMP}
    {ts : List (TIMESTAMP × TIMESTAMP)}

theorem times_unlink (l : TsLists) (core h tsl : ℕ) : (l.unlink core h tsl).times = l.times := by
  funext r
  have hsame := l.unlink_sameMessage core h tsl r
  rw [times, times, hsame.startTime, hsame.endTime]

theorem Stamped.consumeTerminatedTsList (h : l.Stamped core (tm :: ts)) (hmsgs : 0 < numMsgs) :
    ∃ tsl l', l.consumeTerminatedTsList numMsgs core = some (some tsl, l') ∧ l'.times tsl = tm ∧
      l'.Stamped core ts := by
  obtain ⟨newer, older, hnodup, hheaded, htimes, hterminated⟩ := h
  rw [List.reverse_cons] at htimes
  rcases List.eq_nil_or_concat' older with rfl | ⟨ys, tsl, rfl⟩
  · rw [List.map_nil] at htimes
    exact absurd htimes.symm (List.append_ne_nil_of_right_ne_nil _ (List.cons_ne_nil tm []))
  rw [List.map_append, List.map_singleton] at htimes
  obtain ⟨hys, htsl⟩ := List.append_inj' htimes rfl
  have htsl : l.times tsl = tm := List.singleton_inj.mp htsl
  have htaken : (l.record tsl).terminated = true :=
    hterminated tsl (List.mem_append_right ys List.mem_cons_self)
  have hrest : ∀ x, ∀ r ∈ ys, ((l.unlink core x tsl).record r).terminated = true := fun x r hr =>
    (l.unlink_sameMessage core x tsl r).terminated.trans (hterminated r (List.mem_append_left _ hr))
  rw [← List.append_assoc] at hnodup hheaded
  have hheaded := hheaded (List.append_ne_nil_of_right_ne_nil _ (List.cons_ne_nil tsl []))
  rw [TsLists.consumeTerminatedTsList, if_pos hmsgs]
  cases hxs : newer ++ ys with
  | nil =>
    -- it is the only one
    obtain ⟨rfl, rfl⟩ := List.append_eq_nil_iff.mp hxs
    obtain ⟨hsome, -, hprev, -⟩ := hheaded
    have hprev : (l.record tsl).prev = some tsl := hprev
    refine ⟨tsl, l.unlink core tsl tsl, ?_, by rw [times_unlink]; exact htsl, [], [],
      List.nodup_nil, fun hne => absurd rfl hne, by rw [← hys]; rfl, fun r hr => by cases hr⟩
    rw [hsome]
    dsimp only
    rw [hprev, Option.map_some, if_pos htaken]
  | cons x xs =>
    rw [hxs, List.cons_append] at hheaded hnodup
    obtain ⟨hsome, -, hprev, -⟩ := id hheaded
    have hprev : (l.record x).prev = some tsl :=
      hprev.trans (congrArg some (List.getLast_concat (l := x :: xs)))
    refine ⟨tsl, l.unlink core x tsl, ?_, by rw [times_unlink]; exact htsl, newer, ys, ?_, fun _ =>
      ?_, by rw [times_unlink]; exact hys, hrest x⟩
    · rw [hsome]
      dsimp only
      rw [hprev, Option.map_some, if_pos htaken]
    · rw [hxs]
      rw [← List.cons_append] at hnodup
      exact (List.nodup_append.mp hnodup).1
    · rw [hxs]
      exact hheaded.unlink_many hnodup

end TsLists

namespace PrintQueue

variable {q : PrintQueue} {buffSize : ℕ}

/-- Reading stops at the next null character, or where the destination is full. -/
theorem readMsg_of_cells {text rest : List Byte} {o : ℕ} (n : ℕ) (hpbi : q.pbi < buffSize)
    (ho : o < buffSize)
    (hcells : cells q.pbuff buffSize o q.pbi = text ++ 0x00 :: rest) (htext : 0x00 ∉ text) :
    ∃ o' < buffSize, q.readMsg buffSize n o = (text.take n, o') ∧ cells q.pbuff buffSize o' q.pbi =
      text.drop n ++ 0x00 :: rest := by
  induction n generalizing text o with
  | zero => exact ⟨o, ho, rfl, hcells⟩
  | succ n ih =>
    have hne : o ≠ q.pbi := by
      rintro rfl
      rw [cells_self] at hcells
      exact absurd hcells.symm (List.append_ne_nil_of_right_ne_nil text
        (List.cons_ne_nil 0x00 rest))
    have hcells' := hcells
    rw [cells_cons _ ho hpbi hne] at hcells'
    cases text with
    | nil => exact ⟨o, ho, if_pos (List.cons.inj hcells').1, hcells⟩
    | cons c text =>
      obtain ⟨hc, htail⟩ := List.cons.inj hcells'
      have hzero : c ≠ 0x00 := fun heq => htext (heq ▸ List.mem_cons_self)
      rw [← advance_eq ho] at htail
      obtain ⟨o', ho', hread, hrest⟩ :=
        ih (advance_lt ho) htail fun hmem => htext (List.mem_cons_of_mem c hmem)
      refine ⟨o', ho', ?_, hrest⟩
      rw [readMsg, hc, if_neg hzero, hread]
      rfl

end PrintQueue

namespace ITCPrint

/-- The queue of a core holds complete messages, the oldest first, and the characters of a message
in progress. -/
structure Queued (p : ITCPrint) (core : ℕ) (msgs : List Printed) (rest : List Byte) : Prop where
  ring : (p.queue core).InRing p.buffSize
  unread : (p.queue core).unread p.buffSize = (⟨msgs.map Printed.text, rest⟩ : TextQueue).content
  plain : ∀ m ∈ msgs, 0x00 ∉ m.text
  numMsgs : (p.queue core).numMsgs = msgs.length
  stamped : p.lists.Stamped core (msgs.map fun m => (m.startTime, m.endTime))

variable {p p' : ITCPrint} {core : ℕ} {m : Printed} {msgs : List Printed} {rest : List Byte}
    {dstLen : ℤ}

theorem content_cons (m : Printed) (msgs : List Printed) (rest : List Byte) :
    (⟨(m :: msgs).map Printed.text, rest⟩ : TextQueue).content =
      m.text ++ 0x00 :: (⟨msgs.map Printed.text, rest⟩ : TextQueue).content := by
  rw [TextQueue.content, List.map_cons, List.flatMap_cons]
  simp only [List.append_assoc]
  rfl

/-- The state behind a get that has read up to index `o`. -/
def taken (p : ITCPrint) (core : ℕ) (l : TsLists) (o : ℕ) : ITCPrint :=
  { p.setQueue core { p.queue core with numMsgs := (p.queue core).numMsgs - 1, pbo := advance p.buffSize o } with lists := l }

theorem unread_taken {l : TsLists} {o : ℕ} {c : Byte} {text : List Byte}
    (hpbi : (p.queue core).pbi < p.buffSize) (ho : o < p.buffSize)
    (hcells : cells (p.queue core).pbuff p.buffSize o (p.queue core).pbi = c :: text) :
    ((p.taken core l o).queue core).unread p.buffSize = text := by
  have hne : o ≠ (p.queue core).pbi := by
    rintro rfl
    rw [cells_self] at hcells
    cases hcells
  rw [cells_cons _ ho hpbi hne, ← PrintQueue.advance_eq ho] at hcells
  rw [PrintQueue.unread, taken]
  simp only [setQueue_self]
  exact (List.cons.inj hcells).2

/-- The queue holds the other messages if and only if the text that is left begins with them. -/
theorem Queued.taken_iff (h : p.Queued core (m :: msgs) rest) {l : TsLists}
    (hstamped : l.Stamped core (msgs.map fun m => (m.startTime, m.endTime)))
    {o : ℕ} (ho : o < p.buffSize) : (p.taken core l o).Queued core msgs rest ↔
      ((p.taken core l o).queue core).unread p.buffSize =
      (⟨msgs.map Printed.text, rest⟩ : TextQueue).content := by
  refine ⟨fun hqueued => hqueued.unread, fun hunread =>
    ⟨?_, hunread, fun m hm => h.plain m (List.mem_cons_of_mem _ hm), ?_, hstamped⟩⟩
  · exact (setQueue_self _).symm ▸ ⟨h.ring.pbi, PrintQueue.advance_lt ho⟩
  · rw [taken]
    simp only [setQueue_self]
    rw [h.numMsgs, List.length_cons]
    omega

theorem Queued.numMsgs_pos (h : p.Queued core (m :: msgs) rest) : 0 < (p.queue core).numMsgs := by
  rw [h.numMsgs, List.length_cons]
  omega

/-- A get into a destination hands out what fits of the oldest message, with its own times, and
skips one character. -/
theorem Queued.getITCPrintMsg (h : p.Queued core (m :: msgs) rest) (hcore : core < p.numCores)
    (hdst : 1 ≤ dstLen) :
    ∃ l o, p.getITCPrintMsg core true dstLen = some
      (some { m with text := m.text.take (dstLen - 1).toNat }, p.taken core l o) ∧
      o < p.buffSize ∧ l.Stamped core (msgs.map fun m => (m.startTime, m.endTime)) ∧
      ((p.taken core l o).queue core).unread p.buffSize =
        (m.text.drop (dstLen - 1).toNat ++ 0x00 ::
          (⟨msgs.map Printed.text, rest⟩ : TextQueue).content).tail := by
  obtain ⟨tsl, l, hconsume, htimes, hstamped⟩ := h.stamped.consumeTerminatedTsList h.numMsgs_pos
  have hunread := h.unread
  rw [content_cons] at hunread
  obtain ⟨o, ho, hread, hcells⟩ := PrintQueue.readMsg_of_cells (dstLen - 1).toNat h.ring.pbi
    h.ring.pbo hunread (h.plain m List.mem_cons_self)
  refine ⟨l, o, ?_, ho, hstamped, ?_⟩
  · have hguard : ¬ (p.numCores ≤ core ∨ true = false ∨ dstLen ≤ 0) := by simp; omega
    obtain ⟨hstart, hend⟩ := Prod.mk.inj htimes
    rw [ITCPrint.getITCPrintMsg, if_neg hguard]
    dsimp only
    rw [if_pos h.numMsgs_pos, hconsume, Option.map_some, hread]
    dsimp only
    rw [hstart, hend]
    rfl
  · obtain ⟨c, text, hsplit⟩ := List.exists_cons_of_ne_nil
      (List.append_ne_nil_of_right_ne_nil (m.text.drop (dstLen - 1).toNat) (List.cons_ne_nil 0x00
        (⟨msgs.map Printed.text, rest⟩ : TextQueue).content))
    rw [hsplit] at hcells ⊢
    exact unread_taken h.ring.pbi ho hcells

/-- A get of a string hands out the oldest message, with its own times, and leaves the others. -/
theorem Queued.getITCPrintStr (h : p.Queued core (m :: msgs) rest) (hcore : core < p.numCores) :
    ∃ p', p.getITCPrintStr core = some (some m, p') ∧ p'.Queued core msgs rest ∧
      p'.numCores = p.numCores := by
  obtain ⟨tsl, l, hconsume, htimes, hstamped⟩ := h.stamped.consumeTerminatedTsList h.numMsgs_pos
  have hunread := h.unread
  have hlength := PrintQueue.length_unread_lt h.ring
  rw [content_cons] at hunread
  rw [hunread, List.length_append] at hlength
  obtain ⟨o, ho, hread, hcells⟩ := PrintQueue.readStr_of_cells h.ring.pbi h.ring.pbo hunread
    (h.plain m List.mem_cons_self) (.inl rfl) (show m.text.length < p.buffSize by omega)
  refine ⟨p.taken core l o, ?_, (h.taken_iff hstamped ho).mpr (unread_taken h.ring.pbi ho hcells),
    rfl⟩
  obtain ⟨hstart, hend⟩ := Prod.mk.inj htimes
  rw [ITCPrint.getITCPrintStr, if_neg (Nat.not_le.mpr hcore)]
  dsimp only
  rw [if_pos h.numMsgs_pos, hconsume, Option.bind_some]
  dsimp only
  rw [hread, Option.map_some, hstart, hend]
  rfl

/-- The messages that a core has written are in its queue. -/
theorem Carries.queued {t : TextQueue} {xs F : List ℕ} (h : p.Carries core t xs F) :
    ∃ msgs, msgs.map Printed.text = t.lines ∧ p.Queued core msgs t.rest := by
  obtain ⟨newer, older, rfl, -, holder⟩ := List.map_eq_append_iff.mp h.flags
  have hlength : older.reverse.length = t.lines.length := by
    rw [List.length_reverse, ← List.length_replicate (n := t.lines.length) (a := true), ← holder,
      List.length_map]
  set msgs := (t.lines.zip older.reverse).map fun lr => Printed.mk lr.1
    (p.lists.record lr.2).startTime (p.lists.record lr.2).endTime with hmsgs
  have htexts : msgs.map Printed.text = t.lines := by
    rw [hmsgs, List.map_map]
    exact List.map_fst_zip hlength.ge
  have htimes : msgs.map (fun m => (m.startTime, m.endTime)) = older.reverse.map p.lists.times := by
    conv_rhs => rw [← List.map_snd_zip hlength.le]
    rw [hmsgs, List.map_map, List.map_map]
    rfl
  have hlines : msgs.length = t.lines.length :=
    (List.length_map Printed.text).symm.trans (congrArg List.length htexts)
  refine ⟨msgs, htexts, h.ring, by rw [htexts]; exact h.unread, fun m hm => h.plain.lines
    _ (htexts ▸ List.mem_map_of_mem hm), by
      rw [h.numMsgs, hlines], newer, older, ?_, fun hne => ?_, ?_, fun r hr => ?_⟩
  · exact (List.nodup_append.mp h.strung.nodup).1
  · have hheaded := h.strung.headed
    obtain ⟨x, xs, hxs⟩ := List.exists_cons_of_ne_nil hne
    rw [hxs] at hheaded ⊢
    exact hheaded
  · rw [htimes, List.map_reverse, List.reverse_reverse]
  · exact List.eq_of_mem_replicate (holder ▸ List.mem_map_of_mem
      (f := fun r => (p.lists.record r).terminated) hr)

/-! ### Getting into a short destination -/

/-- A get hands out what fits of the oldest message `m`, with its times, and leaves the messages
behind it: the next get hands out the first of them. -/
def Resumes (p : ITCPrint) (core : ℕ) (dstLen : ℤ) (m : Printed) (msgs : List Printed)
    (rest : List Byte) : Prop :=
  ∃ p', p.getITCPrintMsg core true dstLen =
    some (some { m with text := m.text.take (dstLen - 1).toNat }, p') ∧ p'.Queued core msgs rest ∧
      ∀ next later, msgs = next :: later → ∃ p'', p'.getITCPrintStr core = some (some next, p'') ∧
      p''.Queued core later rest

/-- **Short destinations.** A get leaves the messages behind the oldest one as they are if and only
if the oldest one fits. -/
theorem Queued.resumes_iff (h : p.Queued core (m :: msgs) rest) (hcore : core < p.numCores)
    (hdst : 1 ≤ dstLen) :
    p.Resumes core dstLen m msgs rest ↔ m.text.length < dstLen := by
  obtain ⟨l, o, hget, ho, hstamped, hunread⟩ := h.getITCPrintMsg hcore hdst
  have hiff := h.taken_iff hstamped ho
  rw [hunread] at hiff
  constructor
  · rintro ⟨p', hget', hqueued, -⟩
    obtain rfl : p' = p.taken core l o := (Prod.mk.inj (Option.some.inj (hget'.symm.trans hget))).2
    have hlen := congrArg List.length (hiff.mp hqueued)
    rw [List.length_tail, List.length_append, List.length_drop, List.length_cons] at hlen
    omega
  · intro hlt
    have hqueued := hiff.mpr (by rw [List.drop_of_length_le (by omega)]; rfl)
    refine ⟨p.taken core l o, hget, hqueued, ?_⟩
    rintro next later rfl
    obtain ⟨p'', hnext, hlater, -⟩ :=
      hqueued.getITCPrintStr (show core < (p.taken core l o).numCores from hcore)
    exact ⟨p'', hnext, hlater⟩

def twoLines : ITCPrint :=
  ((ITCPrint.init ITC_OPT_PRINT 1 64 0 none fun _ _ => 0x00).outcomes (fun _ _ => [])
    [.print 0 0 0x0a636261 1, .print 0 2 0x0a64 5]).elim (.init ITC_OPT_PRINT 1 64 0 none fun _ _ =>
      0x00) Prod.snd

theorem queued_twoLines : twoLines.Queued 0 [⟨[0x61, 0x62, 0x63, 0x0a], 1, 1⟩, ⟨[0x64, 0x0a], 5, 5⟩]
    [] where
  ring := ⟨by decide, by decide⟩
  unread := by decide
  plain := by decide
  numMsgs := by decide
  stamped :=
    ⟨[], [1, 0], by decide, fun _ => ⟨by decide, ⟨⟨by decide, by decide⟩, trivial⟩, by decide,
      fun _ => by decide⟩, by decide, by decide⟩

theorem resumes_iff_twoLines : twoLines.Resumes 0 5 ⟨[0x61, 0x62, 0x63, 0x0a], 1, 1⟩
    [⟨[0x64, 0x0a], 5, 5⟩] [] ↔ ([0x61, 0x62, 0x63, 0x0a] : List Byte).length < (5 : ℤ) :=
  queued_twoLines.resumes_iff (by decide) (by decide)

/-- After a get of one character the next one hands out the end of the same line, with the times of
the other. -/
theorem not_resumes : ¬ ∀ (p : ITCPrint) (core : ℕ) (dstLen : ℤ) (m : Printed) (msgs : List Printed)
    (rest : List Byte),
    p.Queued core (m :: msgs) rest → core < p.numCores → 1 ≤ dstLen →
      p.Resumes core dstLen m msgs rest := by
  intro hall
  obtain ⟨p', hget, -, hnext⟩ := hall twoLines 0 2 _ _ _ queued_twoLines (by decide) (by decide)
  obtain ⟨p'', hnext, -⟩ := hnext _ _ rfl
  have hlate : ((twoLines.getITCPrintMsg 0 true 2).bind fun r => r.2.getITCPrintStr 0).map
      Prod.fst = some (some ⟨[0x63, 0x0a], 5, 5⟩) := by decide
  rw [hget, Option.bind_some, hnext, Option.map_some] at hlate
  have htext := congrArg Printed.text (Option.some.inj (Option.some.inj hlate))
  exact absurd htext (by decide : ([0x64, 0x0a] : List Byte) ≠ [0x63, 0x0a])

end ITCPrint

end TraceDecoder
