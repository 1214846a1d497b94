import TraceDecoder.ITCPrintFaithful

/-!
# No-load strings between texts

A no-load string ends the message in progress and is a message of its own behind it. It goes through
whole as long as there is room.
-/

namespace TraceDecoder

open TsLists

namespace TextQueue

variable (t : TextQueue)

def close : TextQueue := ⟨t.lines ++ if t.rest = [] then [] else [t.rest], []⟩

def announce (text : List Byte) : TextQueue := ⟨t.close.lines ++ [text], []⟩

variable {t}

theorem close_of_nil (hrest : t.rest = []) : t.close = t := by
  obtain ⟨lines, rest⟩ := t
  obtain rfl : rest = [] := hrest
  rw [close, if_pos rfl, List.append_nil]

theorem content_close (hrest : t.rest ≠ []) : t.close.content = t.content ++ [0x00] := by
  rw [close, if_neg hrest, content, content]
  simp

theorem content_announce (t : TextQueue) (text : List Byte) : (t.announce text).content =
    t.close.content ++ (text ++ [0x00]) := by
  rw [announce, content, content]
  simp [close]

theorem Plain.close (h : t.Plain) : t.close.Plain := by
  refine ⟨fun line hline => ?_, List.not_mem_nil⟩
  rw [TextQueue.close] at hline
  rcases List.mem_append.mp hline with hline | hline
  · exact h.lines line hline
  · split_ifs at hline
    · cases hline
    · rw [List.mem_singleton.mp hline]
      exact h.rest

theorem Plain.announce (h : t.Plain) {text : List Byte} (htext : 0x00 ∉ text) :
    (t.announce text).Plain := by
  refine ⟨fun line hline => ?_, List.not_mem_nil⟩
  rcases List.mem_append.mp hline with hline | hline
  · exact h.close.lines line hline
  · rwa [List.mem_singleton.mp hline]

end TextQueue

namespace ITCPrint

structure Keeps (p p' : ITCPrint) : Prop where
  numCores : p'.numCores = p.numCores
  printChannel : p'.printChannel = p.printChannel
  itcOptFlags : p'.itcOptFlags = p.itcOptFlags
  nlsStrings : p'.nlsStrings = p.nlsStrings

variable {p p' p'' : ITCPrint} {core : ℕ} {t : TextQueue} {xs F : List ℕ}

theorem Keeps.refl (p : ITCPrint) : Keeps p p := ⟨rfl, rfl, rfl, rfl⟩

theorem Keeps.trans (h : Keeps p p') (h' : Keeps p' p'') : Keeps p p'' :=
  ⟨h'.numCores.trans h.numCores, h'.printChannel.trans h.printChannel,
    h'.itcOptFlags.trans h.itcOptFlags, h'.nlsStrings.trans h.nlsStrings⟩

theorem Keeps.nlsString (h : Keeps p p') (addr : BitVec 32) :
    p'.nlsString addr = p.nlsString addr := by
  unfold ITCPrint.nlsString
  rw [h.itcOptFlags, h.nlsStrings]

theorem Keeps.printPath (h : Keeps p p') (sprintf : String → List PrintfArg → List Byte) (core : ℕ)
    (addr data : BitVec 32) :
    p'.printPath sprintf core addr data = p.printPath sprintf core addr data := by
  unfold ITCPrint.printPath
  rw [h.numCores, h.printChannel, h.itcOptFlags, h.nlsString]

theorem terminate_keeps (p : ITCPrint) (core : ℕ) : Keeps p (p.terminate core) := by
  unfold terminate
  cases p.lists.tsList core with
  | none => exact .refl p
  | some h =>
    dsimp only
    split_ifs
    · exact .refl p
    · exact ⟨rfl, rfl, rfl, rfl⟩

theorem afterPrint_keeps (path : PrintPath) {tstamp : TIMESTAMP}
    (h : p.afterPrint core tstamp path = some p') : Keeps p p' := by
  cases path with
  | ignored =>
    cases h
    exact .refl p
  | nls text =>
    obtain ⟨⟨w, l⟩, -, rfl⟩ := Option.map_eq_some_iff.mp h
    obtain ⟨hcores, hchannel, hflags, hstrings⟩ := p.terminate_keeps core
    exact ⟨hcores, hchannel, hflags, hstrings⟩
  | data bytes =>
    obtain ⟨⟨w, l⟩, -, rfl⟩ := Option.map_eq_some_iff.mp h
    exact ⟨rfl, rfl, rfl, rfl⟩

theorem getITCPrintStr_keeps {r : Option Printed × ITCPrint} (h : p.getITCPrintStr core = some r) :
    Keeps p r.2 := by
  rw [getITCPrintStr] at h
  dsimp only at h
  split_ifs at h
  · cases h
    exact .refl p
  · obtain ⟨⟨tsl, l⟩, -, hrest⟩ := Option.bind_eq_some_iff.mp h
    cases tsl with
    | none =>
      cases hrest
      exact ⟨rfl, rfl, rfl, rfl⟩
    | some tsl =>
      obtain ⟨read, -, rfl⟩ := Option.map_eq_some_iff.mp hrest
      exact ⟨rfl, rfl, rfl, rfl⟩
  · cases h
    exact .refl p

/-! ### No-load strings -/

/-- The records behind the newest one keep their flags when that is modified. -/
theorem map_terminated_modify {l : TsLists} {x : ℕ} (h : l.Strung core (x :: xs) F)
    (f : TsList → TsList) :
    xs.map (fun r => ((l.modify x f).record r).terminated) = xs.map fun r =>
      (l.record r).terminated := by
  have hnotin : x ∉ xs := (List.nodup_cons.mp (List.nodup_append.mp h.nodup).1).1
  apply List.map_congr_left
  intro r hr
  have hother : r ≠ x := ne_of_mem_of_not_mem hr hnotin
  rw [modify_record_of_ne l f hother]

/-- Without a message in progress the newest record, if there is one, is terminated. -/
theorem Carries.head_terminated (h : p.Carries core t xs F) (hrest : t.rest = []) {x : ℕ}
    (hx : p.lists.tsList core = some x) : (p.lists.record x).terminated = true := by
  have hflags := h.flags
  rw [if_pos hrest, List.nil_append] at hflags
  cases xs with
  | nil =>
    rcases h.strung.headed with hnone | ⟨x', F₀, hsome, -, hterminated⟩
    · rw [hnone] at hx
      cases hx
    · rwa [Option.some.inj (hx.symm.trans hsome)]
  | cons x' xs =>
    obtain ⟨hsome, -⟩ := h.strung.headed
    rw [Option.some.inj (hx.symm.trans hsome)]
    exact List.eq_of_mem_replicate (n := t.lines.length) (hflags ▸ List.mem_map_of_mem
      List.mem_cons_self)

theorem Carries.newMessage (h : p.Carries core t xs F) (hrest : t.rest = []) (tstamp : TIMESTAMP) :
    ∃ w l xs' F', p.newMessage core tstamp = some (w, l) ∧ l.Strung core (w :: xs') F' ∧
      (l.record w).terminated = false ∧
      xs'.map (fun r => (l.record r).terminated) = List.replicate t.lines.length true := by
  obtain ⟨w, l, xs', F', hworking, hspec⟩ := h.workingTsList tstamp
  refine ⟨w, l, xs', F', ?_, hspec⟩
  rw [← hworking, ITCPrint.workingTsList]
  cases hhead : p.lists.tsList core with
  | none => rfl
  | some x =>
    dsimp only
    rw [if_pos (h.head_terminated hrest hhead)]

/-- The end of the message in progress takes one character. -/
theorem Carries.terminate (h : p.Carries core t xs F)
    (hroom : 0 < (p.queue core).roomInITCPrintQ p.buffSize) :
    (p.terminate core).Carries core t.close xs F ∧
      (p.queue core).roomInITCPrintQ p.buffSize ≤ ((p.terminate core).queue core).roomInITCPrintQ
        p.buffSize + 1 := by
  by_cases hrest : t.rest = []
  · have hsame : p.terminate core = p := by
      unfold ITCPrint.terminate
      cases hhead : p.lists.tsList core with
      | none => rfl
      | some x =>
        dsimp only
        rw [if_pos (h.head_terminated hrest hhead)]
    rw [hsame, TextQueue.close_of_nil hrest]
    exact ⟨h, Nat.le_succ _⟩
  · have hflags := h.flags
    rw [if_neg hrest] at hflags
    obtain ⟨x, xs', rfl⟩ := List.exists_cons_of_ne_nil (l := xs) (by
      rintro rfl
      cases hflags)
    obtain ⟨hsome, -⟩ := h.strung.headed
    obtain ⟨hx, hxs⟩ := List.cons.inj hflags
    have hx : (p.lists.record x).terminated = false := hx
    set q := ((p.queue core).put p.buffSize 0x00).addMsg with hq
    set f : TsList → TsList := fun t => { t with terminated := true } with hf
    have hstate : p.terminate core = { p.setQueue core q with lists := p.lists.modify x f } := by
      unfold ITCPrint.terminate
      rw [hsome]
      dsimp only
      rw [if_neg (by rw [hx]; exact Bool.false_ne_true)]
    have hclosed : t.close = ⟨t.lines ++ [t.rest], []⟩ := by rw [TextQueue.close, if_neg hrest]
    have hput : q.InRing p.buffSize := ⟨PrintQueue.advance_lt h.ring.pbi, h.ring.pbo⟩
    rw [hstate]
    refine ⟨⟨?_, ?_, fun hne => absurd rfl hne, ?_, h.plain.close, h.strung.modify
      List.mem_cons_self fun _ => ⟨rfl, rfl⟩, ?_⟩, ?_⟩
    · exact (setQueue_self q).symm ▸ hput
    · rw [setQueue_self, TextQueue.content_close hrest, ← h.unread]
      exact h.ring.unread_put 0x00 hroom
    · rw [setQueue_self, hclosed, List.length_append, Int.natCast_add, ← h.numMsgs]
      rfl
    · have hself : ((p.lists.modify x f).record x).terminated = true := by rw [modify_record_self]
      rw [hclosed, if_pos rfl, List.nil_append, List.length_append, List.length_singleton,
        List.replicate_succ, List.map_cons]
      exact congrArg₂ List.cons hself ((map_terminated_modify h.strung f).trans hxs)
    · have hshrink := h.ring.room_put 0x00 hroom
      rw [setQueue_self]
      change _ ≤ ((p.queue core).put p.buffSize 0x00).roomInITCPrintQ p.buffSize + 1
      omega

/-- A no-load string comes behind the text as a message. -/
theorem Carries.printNls (h : p.Carries core t xs F) {text : List Byte} (htext : 0x00 ∉ text)
    (hroom : text.length + 2 ≤ (p.queue core).roomInITCPrintQ p.buffSize) (tstamp : TIMESTAMP) :
    ∃ p' xs' F', p.printNls core text tstamp = some p' ∧ p'.Carries core
      (t.announce text) xs' F' := by
  obtain ⟨hclosed, hleft⟩ := h.terminate (by omega)
  obtain ⟨hsize, -⟩ := p.terminate_config core
  set p₁ := p.terminate core with hp₁
  obtain ⟨w, l, xs', F', hmessage, hstrung, hterminated, hflags⟩ := hclosed.newMessage rfl tstamp
  have hfits : (text ++ [0x00]).length ≤ (p₁.queue core).roomInITCPrintQ p₁.buffSize := by
    rw [List.length_append, List.length_singleton, hsize]
    omega
  have hput := hclosed.ring.putAll (text ++ [0x00])
  set q := ((p₁.queue core).putAll p₁.buffSize (text ++ [0x00])).withMsgs ((p₁.queue core).numMsgs +
    1) with hq
  set f : TsList → TsList := fun t => { t with endTime := tstamp, terminated := true } with hf
  refine ⟨{ p₁.setQueue core q with lists := l.modify w f }, w :: xs', F', ?_,
    ⟨?_, ?_, fun hne => absurd rfl hne, ?_, h.plain.announce htext,
      hstrung.modify List.mem_cons_self fun _ => ⟨rfl, rfl⟩, ?_⟩⟩
  · have htake : text.take ((p₁.queue core).roomInITCPrintQ p₁.buffSize - 1) = text := by
      apply List.take_of_length_le
      rw [List.length_append, List.length_singleton] at hfits
      omega
    rw [ITCPrint.printNls, ← hp₁, hmessage, Option.map_some]
    dsimp only
    rw [PrintQueue.putText_eq, htake, PrintQueue.addMsg_eq, PrintQueue.put_numMsgs,
      PrintQueue.putAll_numMsgs, hq, PrintQueue.putAll_append]
    rfl
  · exact (setQueue_self q).symm ▸ ⟨hput.1.pbi, hput.1.pbo⟩
  · rw [setQueue_self, TextQueue.content_announce, ← hclosed.unread]
    exact hclosed.ring.unread_appended hfits
  · rw [setQueue_self, TextQueue.announce, List.length_append, Int.natCast_add, ← hclosed.numMsgs]
    rfl
  · have hkeep : xs'.map (fun r => ((l.modify w f).record r).terminated) =
        List.replicate t.close.lines.length true :=
      (map_terminated_modify hstrung f).trans hflags
    have hhead : ((l.modify w f).record w).terminated = true := by rw [modify_record_self]
    rw [List.map_cons, hhead, hkeep, TextQueue.announce, if_pos rfl, List.nil_append,
      List.length_append, List.length_singleton, List.replicate_succ]

end ITCPrint

end TraceDecoder
