import TraceDecoder.ITCPrintLists

/-!
# Taking records off a list

Taking the oldest record off a list of one or two keeps the lists linked. On a longer list the
pointer forward of the record in front of it is left as it is.
-/

namespace TraceDecoder

namespace TsLists

open Function

variable {l : TsLists} {place : ℕ → Place} {L : ℕ → List ℕ} {F : List ℕ} {core : ℕ}

theorem Owned.release (h : l.Owned place L F) {l' : TsLists} {xs : List ℕ} {b : ℕ}
    (hL : L core = xs ++ [b])
    (hring : l'.links.Ring (l'.tsList core) xs) (htsList : ∀ c ≠ core, l'.tsList c = l.tsList c)
    (hother : ∀ r ∉ L core, l'.record r = l.record r) (hfree : l'.freeList = some b)
    (hnext : (l'.record b).next = l.freeList) (hfresh : l'.fresh = l.fresh) :
    l'.Owned (update place b .free) (update L core xs) (b :: F) := by
  have hb : b ∈ L core := by
    rw [hL]
    exact List.mem_append_right _ List.mem_cons_self
  have hnodup : (xs ++ [b]).Nodup := hL ▸ h.nodup core
  have hxs : b ∉ xs := fun hb => (List.nodup_append.mp hnodup).2.2 b hb b List.mem_cons_self rfl
  refine ⟨fun c => ?_, ?_, fun c => ?_, List.nodup_cons.mpr ⟨h.ne_free hb, h.nodup_free⟩, fun c r =>
    ?_, fun r => ?_, fun r => ?_⟩
  · by_cases hc : c = core
    · rw [hc, update_self]
      exact hring
    · rw [update_of_ne hc, htsList c hc]
      have hkeep : ∀ r ∈ L c, l'.record r = l.record r :=
        fun r hr => hother r (h.not_mem hr (Ne.symm hc))
      exact (h.ring c).congr (fun r hr => congrArg TsList.next (hkeep r hr))
        fun r hr => congrArg TsList.prev (hkeep r hr)
  · have hchain : l'.links.Chain l.freeList F := h.chain.congr fun r hr =>
      congrArg TsList.next (hother r fun hr' => h.ne_free hr' hr)
    refine ⟨hfree, ?_⟩
    change l'.links.Chain (l'.record b).next F
    rw [hnext]
    exact hchain
  · by_cases hc : c = core
    · rw [hc, update_self]
      exact (List.nodup_append.mp hnodup).1
    · rw [update_of_ne hc]
      exact h.nodup c
  · by_cases hr : r = b
    · subst hr
      rw [update_self]
      refine iff_of_false (fun hr => ?_) fun h => by cases h
      by_cases hc : c = core
      · rw [hc, update_self] at hr
        exact hxs hr
      · rw [update_of_ne hc] at hr
        exact h.not_mem hb hc hr
    · rw [update_of_ne hr, ← h.mem]
      by_cases hc : c = core
      · subst hc
        rw [update_self, hL, List.mem_append, List.mem_singleton]
        exact ⟨.inl, fun h => h.resolve_right hr⟩
      · rw [update_of_ne hc]
  · by_cases hr : r = b
    · subst hr
      rw [update_self]
      exact iff_of_true List.mem_cons_self rfl
    · rw [update_of_ne hr, ← h.mem_free]
      exact ⟨fun h => (List.mem_cons.mp h).resolve_left hr, List.mem_cons_of_mem _⟩
  · rw [hfresh, h.unallocated]
    by_cases hr : r = b
    · subst hr
      rw [update_self, (h.mem core r).mp hb]
      exact iff_of_false (fun h => by cases h) fun h => by cases h
    · rw [update_of_ne hr]

/-- What `unlink` puts on the free list. -/
def freed (l : TsLists) (tsl : ℕ) : TsLists :=
  { l.modify tsl fun t => { t with next := l.freeList, prev := none } with freeList := some tsl }

theorem sameMessage_freed (l : TsLists) (tsl r : ℕ) :
    SameMessage (l.record r) ((l.freed tsl).record r) := by
  change SameMessage _ ((l.modify tsl fun t => { t with next := l.freeList, prev := none }).record
    r)
  apply sameMessage_modify
  exact fun _ => ⟨rfl, rfl, rfl, rfl⟩

theorem freed_record_of_ne (l : TsLists) {tsl r : ℕ} (hr : r ≠ tsl) : (l.freed tsl).record r =
    l.record r := if_neg hr

theorem freed_next (l : TsLists) (tsl : ℕ) : ((l.freed tsl).record tsl).next = l.freeList :=
  congrArg TsList.next (if_pos rfl)

theorem Owned.unlink_one (h : l.Owned place L F) {a : ℕ} (hL : L core = [a]) :
    (l.unlink core a a).Owned (update place a .free) (update L core []) (a :: F) ∧
      (∀ r, SameMessage (l.record r) ((l.unlink core a a).record r)) ∧
      ∀ r ∉ L core, (l.unlink core a a).record r = l.record r := by
  have hring := h.ring core
  rw [hL] at hring
  obtain ⟨-, hself, -⟩ := Links.ring_cons_iff.mp hring
  have hnext : (l.record a).next = some a := hself
  have hunlink : l.unlink core a a = (l.setTsList core none).freed a := by
    unfold unlink
    rw [if_pos hnext]
    rfl
  have hother : ∀ r ∉ L core, ((l.setTsList core none).freed a).record r = l.record r := by
    intro r hr
    refine freed_record_of_ne _ ?_
    rintro rfl
    exact hr (hL ▸ List.mem_cons_self)
  rw [hunlink]
  refine ⟨h.release hL ?_ (fun c hc => if_neg hc) hother rfl (freed_next _ a) rfl, sameMessage_freed
    _ a, hother⟩
  exact Links.ring_nil_iff.mpr (if_pos rfl)

theorem Owned.unlink_two (h : l.Owned place L F) {a b : ℕ} (hL : L core = [a, b]) :
    (l.unlink core a b).Owned (update place b .free) (update L core [a]) (b :: F) ∧
      (∀ r, SameMessage (l.record r) ((l.unlink core a b).record r)) ∧
      ∀ r ∉ L core, (l.unlink core a b).record r = l.record r := by
  have hring := h.ring core
  rw [hL] at hring
  obtain ⟨hhead, hfirst, hsecond⟩ := Links.ring_cons_iff.mp hring
  have hnext : (l.record a).next = some b := hfirst.1
  have hnext' : (l.record b).next = some a := hsecond.1
  have hprev : (l.record b).prev = some a := hfirst.2
  have hab : a ≠ b := by
    have hnodup := h.nodup core
    rw [hL] at hnodup
    exact fun hab => (List.nodup_cons.mp hnodup).1 (hab ▸ List.mem_cons_self)
  set l₁ := l.modify a fun t => { t with prev := (l.record b).prev } with hl₁
  set l₂ := l₁.modify a fun t => { t with next := (l₁.record b).next } with hl₂
  have hunlink : l.unlink core a b = l₂.freed b := by
    have hnot : ¬ (l.record b).next = some b := by
      rw [hnext']
      exact fun h => hab (Option.some.inj h)
    have hyes : (l₁.record a).next = some b := by
      rw [hl₁, modify_record_self]
      exact hnext
    unfold unlink
    rw [if_neg hnot]
    dsimp only
    rw [← hl₁, if_pos hyes]
    rfl
  have hother : ∀ r ∉ L core, (l₂.freed b).record r = l.record r := by
    intro r hr
    have hra : r ≠ a := by
      rintro rfl
      exact hr (hL ▸ List.mem_cons_self)
    have hrb : r ≠ b := by
      rintro rfl
      exact hr (hL ▸ List.mem_cons_of_mem _ List.mem_cons_self)
    rw [freed_record_of_ne _ hrb, hl₂, modify_record_of_ne _ _ hra, hl₁,
      modify_record_of_ne _ _ hra]
  have hmessage : ∀ r, SameMessage (l.record r) ((l₂.freed b).record r) := by
    intro r
    have h₁ : SameMessage (l.record r) (l₁.record r) := by
      apply sameMessage_modify
      exact fun _ => ⟨rfl, rfl, rfl, rfl⟩
    have h₂ : SameMessage (l₁.record r) (l₂.record r) := by
      apply sameMessage_modify
      exact fun _ => ⟨rfl, rfl, rfl, rfl⟩
    exact (h₁.trans h₂).trans (sameMessage_freed l₂ b r)
  rw [hunlink]
  refine ⟨h.release (show L core = [a] ++ [b] from hL) ?_ (fun _ _ => rfl) hother rfl
    (freed_next l₂ b) rfl, hmessage, hother⟩
  refine Links.ring_cons_iff.mpr ⟨hhead, ?_, ?_⟩
  · change ((l₂.freed b).record a).next = some a
    rw [freed_record_of_ne _ hab, hl₂, modify_record_self, hl₁, modify_record_of_ne _ _ hab.symm]
    exact hnext'
  · change ((l₂.freed b).record a).prev = some a
    rw [freed_record_of_ne _ hab, hl₂, modify_record_self, hl₁, modify_record_self]
    exact hprev

/-- The record that becomes the oldest of several still points to the one
that has been taken off. -/
theorem Owned.unlink_many (h : l.Owned place L F) {a m b : ℕ} {xs : List ℕ}
    (hL : L core = a :: (xs ++ [m, b]))
    (ys : List ℕ) : ¬ (l.unlink core a b).links.Ring ((l.unlink core a b).tsList core) ys := by
  have hring := h.ring core
  rw [hL] at hring
  obtain ⟨hhead, hpath⟩ := Links.ring_cons_iff.mp hring
  obtain ⟨hnodup, hnodup'⟩ := List.nodup_cons.mp (hL ▸ h.nodup core)
  have hmb : m ≠ b := by
    have htail := (List.nodup_append.mp hnodup').2.1
    exact fun hmb => (List.nodup_cons.mp htail).1 (hmb ▸ List.mem_cons_self)
  have ham : a ≠ m := by
    rintro rfl
    exact hnodup (List.mem_append_right _ List.mem_cons_self)
  have hab : a ≠ b := by
    rintro rfl
    exact hnodup (List.mem_append_right _ (List.mem_cons_of_mem _ List.mem_cons_self))
  obtain ⟨-, hlinked, hlast⟩ := (Links.path_append m).mp hpath
  obtain ⟨y, -, hnext, hback⟩ := hpath.mem List.mem_cons_self
  have hnotb : ¬ (l.record a).next = some b := by
    intro hyb
    obtain rfl : y = b := Option.some.inj (hnext.symm.trans hyb)
    exact ham (Option.some.inj (hback.symm.trans hlinked.2))
  have hnot : ¬ (l.record b).next = some b := by
    intro hbb
    exact hab (Option.some.inj (hlast.1.symm.trans hbb))
  set l₁ := l.modify a fun t => { t with prev := (l.record b).prev } with hl₁
  have hunlink : l.unlink core a b = l₁.freed b := by
    have hnot' : ¬ (l₁.record a).next = some b := by
      rw [hl₁, modify_record_self]
      exact hnotb
    unfold unlink
    rw [if_neg hnot]
    dsimp only
    rw [← hl₁, if_neg hnot']
    rfl
  intro hys
  rw [hunlink] at hys
  have htsList : (l₁.freed b).tsList core = some a := hhead
  rw [htsList] at hys
  obtain ⟨m', -, hprev, hnext'⟩ := hys.head_prev
  have hm : (l₁.freed b).links.prev a = some m := by
    change ((l₁.freed b).record a).prev = some m
    rw [freed_record_of_ne _ hab, hl₁, modify_record_self]
    exact hlinked.2
  obtain rfl : m = m' := Option.some.inj (hm.symm.trans hprev)
  have hb : (l₁.freed b).links.next m = some b := by
    change ((l₁.freed b).record m).next = some b
    rw [freed_record_of_ne _ hmb, hl₁, modify_record_of_ne _ _ ham.symm]
    exact hlinked.1
  exact hab (Option.some.inj (hnext'.symm.trans hb))

end TsLists

end TraceDecoder
