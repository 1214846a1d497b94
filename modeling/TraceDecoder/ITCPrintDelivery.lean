import TraceDecoder.ITCPrintContents
import TraceDecoder.ITCPrintOverrun
import TraceDecoder.ITCPrintStrands

/-!
# The text of a core is delivered

A core that uses `ITCPrint` alone, with prints that there is room for, gets its text back as a
queue, as long as no flush takes the message in progress when its record does not point to itself.
-/

namespace TraceDecoder

open RingIndex TsLists

namespace ITCPrint

structure Carries (p : ITCPrint) (core : ℕ) (t : TextQueue) (xs F : List ℕ) : Prop where
  ring : (p.queue core).InRing p.buffSize
  unread : (p.queue core).unread p.buffSize = t.content
  null : t.rest ≠ [] → (p.queue core).pbuff (p.queue core).pbi = 0x00
  numMsgs : (p.queue core).numMsgs = t.lines.length
  plain : t.Plain
  strung : p.lists.Strung core xs F
  flags : xs.map (fun r => (p.lists.record r).terminated) = (if t.rest = [] then [] else [false]) ++
    List.replicate t.lines.length true

variable {p : ITCPrint} {core : ℕ} {t : TextQueue} {xs F : List ℕ}

theorem setQueue_self (q : PrintQueue) : (p.setQueue core q).queue core = q := if_pos rfl

/-! ### Getting -/

theorem Carries.consumeTerminatedTsList (h : p.Carries core t xs F) {line : List Byte}
    {lines : List (List Byte)} (hlines : t.lines = line :: lines) :
    ∃ tsl l xs' F', p.lists.consumeTerminatedTsList (p.queue core).numMsgs core = some
      (some tsl, l) ∧ l.Strung core xs' F' ∧
      xs'.map (fun r => (l.record r).terminated) = (if t.rest = [] then [] else [false]) ++
        List.replicate lines.length true := by
  have hflags := h.flags
  have hstrung := h.strung
  have hmsgs : 0 < (p.queue core).numMsgs := by
    rw [h.numMsgs, hlines, List.length_cons]
    omega
  rw [hlines, List.length_cons, List.replicate_succ', ← List.append_assoc] at hflags
  rcases List.eq_nil_or_concat' xs with rfl | ⟨ys, tsl, rfl⟩
  · rw [List.map_nil] at hflags
    exact absurd hflags.symm (by simp)
  rw [List.map_append, List.map_singleton] at hflags
  obtain ⟨hys, htsl⟩ := List.append_inj' hflags rfl
  have hterminated : (p.lists.record tsl).terminated = true := List.singleton_inj.mp htsl
  rw [TsLists.consumeTerminatedTsList, if_pos hmsgs]
  have hsame : ∀ x, (fun r => ((p.lists.unlink core x tsl).record r).terminated) =
      fun r => (p.lists.record r).terminated := fun x =>
    funext fun r => (p.lists.unlink_sameMessage core x tsl r).terminated
  cases ys with
  | nil =>
    obtain ⟨hsome, -, hprev, -⟩ := hstrung.headed
    have hprev' : (p.lists.record tsl).prev = some tsl := hprev
    refine ⟨tsl, p.lists.unlink core tsl tsl, [], tsl :: F, ?_, hstrung.unlink_one
      (.inl hterminated), hys⟩
    rw [hsome]
    dsimp only
    rw [hprev', Option.map_some, if_pos hterminated]
  | cons x ys =>
    obtain ⟨hsome, -, hprev, -⟩ := hstrung.headed
    have hprev' : (p.lists.record x).prev = some tsl :=
      hprev.trans (congrArg some (List.getLast_concat (l := x :: ys)))
    refine ⟨tsl, p.lists.unlink core x tsl, x :: ys, tsl :: F, ?_,
      hstrung.unlink_many, by rw [hsame]; exact hys⟩
    rw [hsome]
    dsimp only
    rw [hprev', Option.map_some, if_pos hterminated]

theorem Carries.getITCPrintStr (h : p.Carries core t xs F) (hcore : core < p.numCores)
    {line : List Byte} {lines : List (List Byte)} (hlines : t.lines = line :: lines) :
    ∃ printed p' xs' F', p.getITCPrintStr core = some (some printed, p') ∧ printed.text = line ∧
      p'.Carries core ⟨lines, t.rest⟩ xs' F' ∧
      p'.numCores = p.numCores := by
  obtain ⟨tsl, l, xs', F', hconsume, hstrung, hflags⟩ := h.consumeTerminatedTsList hlines
  have hunread := h.unread
  have hcontent : t.content = line ++ 0x00 :: (⟨lines, t.rest⟩ : TextQueue).content := by
    rw [TextQueue.content, hlines, List.flatMap_cons]
    simp only [List.append_assoc]
    rfl
  have hlength := PrintQueue.length_unread_lt h.ring
  rw [hcontent] at hunread
  rw [hunread, List.length_append] at hlength
  obtain ⟨o, ho, hread, hrest⟩ := PrintQueue.readStr_of_cells h.ring.pbi h.ring.pbo hunread
    (h.plain.lines line (hlines ▸ List.mem_cons_self)) (.inl rfl) (show line.length <
      p.buffSize by omega)
  have hne : o ≠ (p.queue core).pbi := by
    rintro rfl
    rw [cells_self] at hrest
    cases hrest
  rw [cells_cons _ ho h.ring.pbi hne] at hrest
  have hmsgs : 0 < (p.queue core).numMsgs := by
    rw [h.numMsgs, hlines, List.length_cons]
    omega
  refine ⟨⟨line, (l.record tsl).startTime, (l.record tsl).endTime⟩,
    { p.setQueue core { p.queue core with numMsgs := (p.queue core).numMsgs - 1, pbo := advance p.buffSize o } with lists := l }, xs', F', ?_, rfl, ⟨?_, ?_, ?_, ?_, ?_, hstrung, hflags⟩, rfl⟩
  · rw [ITCPrint.getITCPrintStr, if_neg (Nat.not_le.mpr hcore)]
    dsimp only
    rw [if_pos hmsgs, hconsume, Option.bind_some]
    dsimp only
    rw [hread, Option.map_some]
  · exact (setQueue_self _).symm ▸ ⟨h.ring.pbi, PrintQueue.advance_lt ho⟩
  · rw [PrintQueue.unread]
    simp only [setQueue_self]
    rw [PrintQueue.advance_eq ho]
    exact (List.cons.inj hrest).2
  · intro hne
    simp only [setQueue_self]
    exact h.null hne
  · simp only [setQueue_self]
    rw [h.numMsgs, hlines, List.length_cons]
    omega
  · exact ⟨fun l hl => h.plain.lines l (hlines ▸ List.mem_cons_of_mem _ hl), h.plain.rest⟩

/-! ### Flushing -/

theorem Carries.content_of_nil (h : p.Carries core t xs F) (hlines : t.lines = []) :
    (p.queue core).unread p.buffSize = t.rest ∧ (p.queue core).numMsgs = 0 := by
  have hunread := h.unread
  have hmsgs := h.numMsgs
  rw [hlines] at hmsgs
  rw [TextQueue.content, hlines] at hunread
  exact ⟨hunread, hmsgs⟩

theorem Carries.pbo_eq_pbi (h : p.Carries core t xs F) (hlines : t.lines = []) :
    (p.queue core).pbo = (p.queue core).pbi ↔ t.rest = [] := by
  obtain ⟨hunread, -⟩ := h.content_of_nil hlines
  rw [← hunread, PrintQueue.unread]
  constructor
  · intro heq
    rw [heq, cells_self]
  · intro hnil
    by_contra hne
    rw [cells_cons _ h.ring.pbo h.ring.pbi hne] at hnil
    cases hnil

theorem Carries.flush_empty (h : p.Carries core t xs F) (hcore : core < p.numCores)
    (hlines : t.lines = []) (hrest : t.rest = []) :
    p.flushITCPrintStr core = some (none, p) := by
  obtain ⟨-, hmsgs⟩ := h.content_of_nil hlines
  rw [ITCPrint.flushITCPrintStr, if_neg (Nat.not_le.mpr hcore)]
  dsimp only
  rw [if_neg (by omega), if_pos ((h.pbo_eq_pbi hlines).mpr hrest)]

/-- A flush with a message in progress hands out what there is of it. -/
theorem Carries.flush_rest (h : p.Carries core t xs F) (hcore : core < p.numCores)
    (hlines : t.lines = []) (hrest : t.rest ≠ []) :
    ∃ printed p' x, p.flushITCPrintStr core = some (some printed, p') ∧ printed.text = t.rest ∧
      p.lists.tsList core = some x ∧
      (p'.flushITCPrintStr core = some (none, p')) ∧ p'.numCores = p.numCores ∧
      ((p.lists.record x).next = some x → p'.Carries core ⟨[], []⟩ [] (x :: F)) := by
  obtain ⟨hunread, hmsgs⟩ := h.content_of_nil hlines
  have hflags := h.flags
  rw [hlines, if_neg hrest] at hflags
  obtain ⟨x, hxs, hx⟩ :=
    List.map_eq_singleton_iff.mp (show xs.map (fun r => (p.lists.record r).terminated) = [false]
      from hflags)
  have hx : (p.lists.record x).terminated = false := hx
  have hstrung := hxs ▸ h.strung
  obtain ⟨hsome, -⟩ := hstrung.headed
  have hterminated : ((p.lists.unlink core x x).record x).terminated = false :=
    (p.lists.unlink_sameMessage core x x x).terminated.trans hx
  have hconsume : p.lists.consumeOldestTsList (p.queue core).numMsgs core =
      some (some x, p.lists.unlink core x x) := by
    rw [TsLists.consumeOldestTsList, TsLists.consumeTerminatedTsList, if_neg (by omega),
      Option.map_some]
    dsimp only
    rw [hsome]
  have hlength := PrintQueue.length_unread_lt h.ring
  rw [hunread] at hlength
  obtain ⟨o, ho, hread, hempty⟩ := PrintQueue.readStr_of_cells h.ring.pbi h.ring.pbo
    (show cells (p.queue core).pbuff p.buffSize (p.queue core).pbo (p.queue core).pbi = t.rest ++
      [] by rw [List.append_nil]; exact hunread)
    h.plain.rest (.inr ⟨rfl, h.null hrest⟩) hlength
  have hend : o = (p.queue core).pbi := by
    by_contra hne
    rw [cells_cons _ ho h.ring.pbi hne] at hempty
    cases hempty
  refine ⟨⟨t.rest, ((p.lists.unlink core x x).record x).startTime,
    ((p.lists.unlink core x x).record x).endTime⟩,
      { p.setQueue core { p.queue core with pbo := o } with lists := p.lists.unlink core x x }, x,
      ?_, rfl, hsome, ?_, rfl, fun hnext => ?_⟩
  · rw [ITCPrint.flushITCPrintStr, if_neg (Nat.not_le.mpr hcore)]
    dsimp only
    rw [if_neg (by omega), if_neg (mt (h.pbo_eq_pbi hlines).mp hrest), hconsume, Option.bind_some]
    dsimp only
    rw [hterminated, if_neg Bool.false_ne_true, hread, Option.map_some]
  · rw [ITCPrint.flushITCPrintStr]
    have hcore' : ¬ (p.setQueue core { p.queue core with pbo := o }).numCores ≤ core :=
      Nat.not_le.mpr hcore
    simp only [hcore', if_false, setQueue_self]
    rw [if_neg (by omega), if_pos hend]
  · refine ⟨?_, ?_, fun hne => absurd rfl hne, ?_, ⟨fun l hl => (by cases hl), List.not_mem_nil⟩,
      hstrung.unlink_one (.inr hnext), rfl⟩
    · exact (setQueue_self _).symm ▸ ⟨h.ring.pbi, ho⟩
    · rw [PrintQueue.unread]
      simp only [setQueue_self]
      exact hempty
    · simp only [setQueue_self]
      exact hmsgs

/-! ### Printing -/

/-- A print goes to a record in progress that is the newest of the core. -/
theorem Carries.workingTsList (h : p.Carries core t xs F) (tstamp : TIMESTAMP) :
    ∃ w l xs' F', p.workingTsList core tstamp = some (w, l) ∧ l.Strung core (w :: xs') F' ∧
      (l.record w).terminated = false ∧
      xs'.map (fun r => (l.record r).terminated) = List.replicate t.lines.length true := by
  have hflags := h.flags
  have hstrung := h.strung
  have hnew : t.rest = [] → ∃ w l xs' F', p.newMessage core tstamp = some (w, l) ∧
      l.Strung core (w :: xs') F' ∧ (l.record w).terminated = false ∧
        xs'.map (fun r => (l.record r).terminated) = List.replicate t.lines.length true := by
    intro hrest
    obtain ⟨w, l₁, l', F', hnewTsList, hlink, hstrung', hterminated, hsame⟩ := hstrung.link_new
    set f : TsList → TsList :=
      fun t => { t with startTime := tstamp, message := some (p.queue core).pbi }
    have hkeep : ∀ r, ((l'.modify w f).record r).terminated = (l'.record r).terminated :=
        fun r => by
      rw [modify_record]
      split_ifs <;> rfl
    refine ⟨w, (l'.modify w f).setTsList core (some w), xs, F', ?_, hstrung'.modify (r := w)
      List.mem_cons_self (f := f) fun _ => ⟨rfl, rfl⟩, (hkeep w).trans hterminated, ?_⟩
    · rw [newMessage, hnewTsList]
      dsimp only
      rw [hlink, Option.map_some]
    · rw [if_pos hrest, List.nil_append] at hflags
      rw [← hflags]
      exact List.map_congr_left fun r hr => (hkeep r).trans (hsame r hr).terminated
  rw [ITCPrint.workingTsList]
  by_cases hrest : t.rest = []
  · obtain ⟨w, l, xs', F', hmessage, hspec⟩ := hnew hrest
    refine ⟨w, l, xs', F', ?_, hspec⟩
    rw [if_pos hrest, List.nil_append] at hflags
    cases xs with
    | nil =>
      rcases hstrung.headed with hnone | ⟨x, F₀, hsome, -, hterminated⟩
      · rw [hnone]
        exact hmessage
      · rw [hsome]
        dsimp only
        rw [if_pos hterminated]
        exact hmessage
    | cons x xs =>
      obtain ⟨hsome, -⟩ := hstrung.headed
      have hterminated : (p.lists.record x).terminated = true :=
        List.eq_of_mem_replicate (n := t.lines.length) (hflags ▸ List.mem_map_of_mem
          List.mem_cons_self)
      rw [hsome]
      dsimp only
      rw [if_pos hterminated]
      exact hmessage
  · rw [if_neg hrest] at hflags
    cases xs with
    | nil => cases hflags
    | cons x xs =>
      obtain ⟨hsome, -⟩ := hstrung.headed
      obtain ⟨hx, hxs⟩ := List.cons.inj hflags
      have hx : (p.lists.record x).terminated = false := hx
      rw [hsome]
      dsimp only
      rw [hx, if_neg Bool.false_ne_true]
      exact ⟨x, p.lists, xs, F, rfl, hstrung, hx, hxs⟩

/-- A word that there is room for, with a terminator at its end at most, comes behind the text. -/
theorem Carries.printData (h : p.Carries core t xs F) {cs : List Byte}
    (hcs : ∀ c ∈ cs, isTerminator c = false) (c : Byte)
    (hroom : 2 * (cs ++ [c]).length < (p.queue core).roomInITCPrintQ p.buffSize)
    (tstamp : TIMESTAMP) :
    ∃ p' xs' F', p.printData core (cs ++ [c]) tstamp = some p' ∧ p'.Carries core
      (t.write (cs ++ [c])) xs' F' ∧ p'.numCores = p.numCores := by
  obtain ⟨w, l, xs', F', hworking, hstrung, hterminated, hflags⟩ := h.workingTsList tstamp
  obtain ⟨hlines, hcount⟩ := TextQueue.write_word (t := t) hcs c
  have hlength := PrintQueue.length_withNulls_le (cs ++ [c])
  set nulls := PrintQueue.withNulls (cs ++ [c]) with hnulls
  have hput := h.ring.putAll nulls
  have hended : ((l.record w).terminated || nulls.contains 0x00) = decide (0x00 ∈ nulls) := by
    rw [hterminated, Bool.false_or, List.contains_eq_mem]
  set q : PrintQueue := (((p.queue core).putAll p.buffSize nulls).withMsgs ((p.queue core).numMsgs +
    nulls.count 0x00)).poke 0x00 with hq
  have hin : q.InRing p.buffSize := ⟨hput.1.pbi, hput.1.pbo⟩
  set f : TsList → TsList := fun t => { t with endTime := tstamp, terminated := t.terminated ||
    (false || nulls.contains 0x00) } with hf
  refine ⟨{ p.setQueue core q with lists := l.modify w f }, w :: xs', F', ?_,
    ⟨?_, ?_, ?_, ?_, h.plain.write _, hstrung.modify List.mem_cons_self fun _ => ⟨rfl, rfl⟩, ?_⟩,
      rfl⟩
  · rw [ITCPrint.printData, hworking, Option.map_some]
    dsimp only
    rw [PrintQueue.putData_eq, PrintQueue.stored_of_room hroom]
  · exact (setQueue_self q).symm ▸ hin
  · rw [setQueue_self, TextQueue.content_write, ← h.unread]
    refine (PrintQueue.InRing.unread_poke (q := ((p.queue core).putAll p.buffSize nulls).withMsgs _)
      ⟨hput.1.pbi, hput.1.pbo⟩ 0x00).trans ?_
    exact h.ring.unread_appended (by omega)
  · intro _
    simp only [setQueue_self]
    exact if_pos rfl
  · simp only [setQueue_self]
    rw [hlines, Int.natCast_add, ← h.numMsgs]
    rfl
  · have hkeep : xs'.map (fun r => ((l.modify w f).record r).terminated) =
        List.replicate t.lines.length true := by
      rw [← hflags]
      refine List.map_congr_left fun r hr => congrArg TsList.terminated (modify_record_of_ne l _ ?_)
      rintro rfl
      exact (List.nodup_cons.mp (List.nodup_append.mp hstrung.nodup).1).1 hr
    have hhead : ((l.modify w f).record w).terminated = decide (0x00 ∈ nulls) := by
      rw [modify_record_self, hf]
      dsimp only
      rw [Bool.false_or, hended]
    rw [List.map_cons, hhead, hkeep, hlines, hcount]
    split_ifs with hrest
    · have hmem : 0x00 ∈ nulls :=
        List.count_pos_iff.mp (by rw [hcount, if_pos hrest]; exact Nat.one_pos)
      rw [decide_eq_true hmem, List.nil_append, List.replicate_succ]
    · have hmem : 0x00 ∉ nulls := List.count_eq_zero.mp (by rw [hcount, if_neg hrest])
      rw [decide_eq_false hmem]
      rfl

end ITCPrint

end TraceDecoder
