import Mathlib.Data.List.Nodup
import TraceDecoder.ITCPrint
import TraceDecoder.Lib.LinkedRing

/-!
# The lists of message records

Every record is on the list of one core or on the free list. A new record keeps all lists linked in
both directions.
-/

namespace TraceDecoder

namespace TsLists

open Function

inductive Place
  | unallocated
  | free
  | core (c : ℕ)

variable {l : TsLists} {place : ℕ → Place} {L : ℕ → List ℕ} {F : List ℕ} {core : ℕ}

def links (l : TsLists) : Links ℕ := ⟨fun r => (l.record r).next, fun r => (l.record r).prev⟩

/-- The lists are linked properly, and each record is on one of them. -/
structure Owned (l : TsLists) (place : ℕ → Place) (L : ℕ → List ℕ) (F : List ℕ) : Prop where
  ring : ∀ c, l.links.Ring (l.tsList c) (L c)
  chain : l.links.Chain l.freeList F
  nodup : ∀ c, (L c).Nodup
  nodup_free : F.Nodup
  mem : ∀ c r, r ∈ L c ↔ place r = .core c
  mem_free : ∀ r, r ∈ F ↔ place r = .free
  unallocated : ∀ r, l.fresh ≤ r ↔ place r = .unallocated

theorem Owned.ne_free (h : l.Owned place L F) {c r : ℕ} (hr : r ∈ L c) : r ∉ F := by
  intro hfree
  have hplace := (h.mem_free r).mp hfree
  rw [(h.mem c r).mp hr] at hplace
  cases hplace

theorem Owned.not_mem (h : l.Owned place L F) {c c' r : ℕ} (hr : r ∈ L c) (hc : c' ≠ c) :
    r ∉ L c' := by
  intro hr'
  have hplace := (h.mem c' r).mp hr'
  rw [(h.mem c r).mp hr] at hplace
  cases hplace
  exact hc rfl

theorem Owned.modify (h : l.Owned place L F) (r : ℕ) {f : TsList → TsList}
    (hf : ∀ t, (f t).next = t.next ∧ (f t).prev = t.prev) : (l.modify r f).Owned place L F := by
  have hnext : ∀ i, ((l.modify r f).record i).next = (l.record i).next := by
    intro i
    change (if i = r then f (l.record i) else l.record i).next = _
    split_ifs
    · exact (hf _).1
    · rfl
  have hprev : ∀ i, ((l.modify r f).record i).prev = (l.record i).prev := by
    intro i
    change (if i = r then f (l.record i) else l.record i).prev = _
    split_ifs
    · exact (hf _).2
    · rfl
  exact ⟨fun c => (h.ring c).congr (fun i _ => hnext i) fun i _ => hprev i, h.chain.congr fun i _ =>
    hnext i, h.nodup, h.nodup_free, h.mem, h.mem_free, h.unallocated⟩

structure Loose (l : TsLists) (place : ℕ → Place) (L : ℕ → List ℕ) (F : List ℕ) (w : ℕ) : Prop where
  ring : ∀ c, l.links.Ring (l.tsList c) (L c)
  chain : l.links.Chain l.freeList F
  nodup : ∀ c, (L c).Nodup
  nodup_free : F.Nodup
  mem : ∀ c r, r ∈ L c ↔ place r = .core c
  mem_free : ∀ r, r ∈ F ↔ r ≠ w ∧ place r = .free
  unallocated : ∀ r, l.fresh ≤ r ↔ r ≠ w ∧ place r = .unallocated
  loose : ∀ c, w ∉ L c

theorem modify_record (l : TsLists) (r : ℕ) (f : TsList → TsList) (i : ℕ) :
    (l.modify r f).record i = if i = r then f (l.record i) else l.record i := rfl

theorem modify_record_self (l : TsLists) (r : ℕ) (f : TsList → TsList) : (l.modify r f).record r = f
    (l.record r) :=
  if_pos rfl

theorem modify_record_of_ne (l : TsLists) {r i : ℕ} (f : TsList → TsList) (h : i ≠ r) :
    (l.modify r f).record i = l.record i := if_neg h

theorem Owned.newTsList (h : l.Owned place L F) :
    ∃ w l₁ F', l.newTsList = (w, l₁) ∧ l₁.Loose place L F' w ∧ l₁.tsList = l.tsList ∧
      (∀ r ≠ w, l₁.record r = l.record r) ∧ (l₁.record w).terminated = false := by
  have hchain := h.chain
  cases hfree : l.freeList with
  | none =>
    obtain rfl : F = [] := by
      cases F with
      | nil => rfl
      | cons x F =>
        rw [hfree] at hchain
        cases hchain.1
    have hplace : place l.fresh = .unallocated := (h.unallocated _).mp (Nat.le_refl _)
    have hother : ∀ c, ∀ r ∈ L c, r ≠ l.fresh := by
      rintro c r hr rfl
      rw [(h.mem c _).mp hr] at hplace
      cases hplace
    set l₁ : TsLists := { l with fresh := l.fresh + 1 }.modify l.fresh fun _ => .init with hl₁
    have hnew : l.newTsList = (l.fresh, l₁) := by
      unfold TsLists.newTsList
      split
      · next w hw => exact absurd (hfree.symm.trans hw) (Option.some_ne_none w).symm
      · rfl
    have hsame : ∀ r ≠ l.fresh, l₁.record r = l.record r := fun r hr => modify_record_of_ne _ _ hr
    refine ⟨l.fresh, l₁, [], hnew, ⟨fun c => ?_, hfree, h.nodup, List.nodup_nil, h.mem,
      fun r => ?_, fun r => ?_, fun c hc => hother c _ hc rfl⟩, rfl, hsame,
        congrArg TsList.terminated (if_pos rfl)⟩
    · exact (h.ring c).congr (fun r hr => congrArg TsList.next (hsame r (hother c r hr)))
        fun r hr => congrArg TsList.prev (hsame r (hother c r hr))
    · rw [h.mem_free]
      refine ⟨fun hr => ⟨?_, hr⟩, And.right⟩
      rintro rfl
      rw [hplace] at hr
      cases hr
    · rw [← h.unallocated]
      change l.fresh + 1 ≤ r ↔ _
      omega
  | some w =>
    obtain ⟨F, rfl⟩ : ∃ F', F = w :: F' := by
      rw [hfree] at hchain
      cases F with
      | nil => cases hchain
      | cons x F =>
        cases hchain.1
        exact ⟨F, rfl⟩
    obtain ⟨hw, hnodup⟩ := List.nodup_cons.mp h.nodup_free
    have hplace : place w = .free := (h.mem_free w).mp List.mem_cons_self
    set l₁ : TsLists :=
      { l with freeList := (l.record w).next }.modify w
        fun t => { t with terminated := false, message := none } with hl₁
    have hnew : l.newTsList = (w, l₁) := by
      unfold TsLists.newTsList
      split
      · next w' hw' =>
        obtain rfl : w = w' := Option.some.inj (hfree.symm.trans hw')
        rfl
      · next hnone => exact absurd (hfree.symm.trans hnone) (Option.some_ne_none w)
    have hsame : ∀ r ≠ w, l₁.record r = l.record r := fun r hr => modify_record_of_ne _ _ hr
    have hother : ∀ c, ∀ r ∈ L c, r ≠ w := by
      rintro c r hr rfl
      exact h.ne_free hr List.mem_cons_self
    refine ⟨w, l₁, F, hnew, ⟨fun c => ?_, ?_, h.nodup, hnodup, h.mem, fun r => ?_, fun r => ?_,
      fun c hc => hother c w hc rfl⟩, rfl, hsame, congrArg TsList.terminated (if_pos rfl)⟩
    · exact (h.ring c).congr (fun r hr => congrArg TsList.next (hsame r (hother c r hr)))
        fun r hr => congrArg TsList.prev (hsame r (hother c r hr))
    · refine hchain.2.congr fun r hr => congrArg TsList.next (hsame r ?_)
      rintro rfl
      exact hw hr
    · rw [← h.mem_free]
      constructor
      · intro hr
        refine ⟨?_, List.mem_cons_of_mem _ hr⟩
        rintro rfl
        exact hw hr
      · rintro ⟨hne, hr⟩
        exact (List.mem_cons.mp hr).resolve_left hne
    · refine (h.unallocated r).trans ⟨fun hr => ⟨?_, hr⟩, And.right⟩
      rintro rfl
      rw [hplace] at hr
      cases hr

structure SameMessage (t t' : TsList) : Prop where
  message : t'.message = t.message
  terminated : t'.terminated = t.terminated
  startTime : t'.startTime = t.startTime
  endTime : t'.endTime = t.endTime

theorem SameMessage.refl (t : TsList) : SameMessage t t := ⟨rfl, rfl, rfl, rfl⟩

theorem SameMessage.trans {t t' t'' : TsList} (h : SameMessage t t') (h' : SameMessage t' t'') :
    SameMessage t t'' :=
  ⟨h'.message.trans h.message, h'.terminated.trans h.terminated, h'.startTime.trans h.startTime,
    h'.endTime.trans h.endTime⟩

theorem sameMessage_modify (l : TsLists) (r : ℕ) {f : TsList → TsList}
    (hf : ∀ t, SameMessage t (f t)) (i : ℕ) :
    SameMessage (l.record i) ((l.modify r f).record i) := by
  rw [modify_record]
  split_ifs
  · exact hf _
  · exact .refl _

/-- The pointers that `link` sets where the list has a newest and an oldest record. -/
theorem link_of_prev (l : TsLists) {core w tlp m : ℕ} (hhead : l.tsList core = some tlp)
    (hprev : (l.record tlp).prev = some m) (hwt : tlp ≠ w) :
    ∃ l', l.link core w = some l' ∧
      (∀ i, l'.links.next i = if i = m then some w else if i = w then some tlp
        else l.links.next i) ∧
      (∀ i, l'.links.prev i = if i = tlp then some w else if i = w then some m
        else l.links.prev i) ∧
      (∀ r, SameMessage (l.record r) (l'.record r)) ∧ (∀ r, r ≠ tlp → r ≠ m → r ≠ w → l'.record r =
        l.record r) ∧
      l'.fresh = l.fresh ∧ l'.freeList = l.freeList ∧ l'.tsList = l.tsList := by
  unfold TsLists.link
  rw [hhead]
  set l₁ := l.modify w fun t => { t with next := some tlp }
  set l₂ := l₁.modify w fun t => { t with prev := (l₁.record tlp).prev }
  set l₃ := l₂.modify tlp fun t => { t with prev := some w }
  set l₄ := l₃.modify m fun t => { t with next := some w }
  have hprev₁ : (l₁.record tlp).prev = some m := by rw [modify_record_of_ne l _ hwt]; exact hprev
  have hprev₃ : (l₃.record w).prev = some m := by
    rw [modify_record_of_ne l₂ _ hwt.symm, modify_record_self]
    exact hprev₁
  have hlink : ((l₃.record w).prev.map fun p => l₃.modify p fun t => { t with next := some w }) =
      some l₄ := by
    rw [hprev₃]
    rfl
  refine ⟨l₄, hlink, fun i => ?_, fun i => ?_, fun r => ?_, fun r hrt hrm hrw => ?_, rfl, rfl, rfl⟩
  · change (l₄.record i).next = _
    simp only [l₄, l₃, l₂, l₁, modify_record]
    split_ifs <;> rfl
  · have hlast : (l₄.record i).prev = (l₃.record i).prev := by
      rw [modify_record]
      split_ifs <;> rfl
    by_cases ht : i = tlp
    · rw [if_pos ht]
      refine hlast.trans ?_
      rw [ht, modify_record_self]
    · rw [if_neg ht]
      by_cases hi : i = w
      · rw [if_pos hi]
        refine hlast.trans ?_
        rw [hi]
        exact hprev₃
      · rw [if_neg hi]
        refine hlast.trans ?_
        rw [modify_record_of_ne l₂ _ ht, modify_record_of_ne l₁ _ hi, modify_record_of_ne l _ hi]
        rfl
  · have h₁ : SameMessage (l.record r) (l₁.record r) := by
      apply sameMessage_modify
      exact fun _ => ⟨rfl, rfl, rfl, rfl⟩
    have h₂ : SameMessage (l₁.record r) (l₂.record r) := by
      apply sameMessage_modify
      exact fun _ => ⟨rfl, rfl, rfl, rfl⟩
    have h₃ : SameMessage (l₂.record r) (l₃.record r) := by
      apply sameMessage_modify
      exact fun _ => ⟨rfl, rfl, rfl, rfl⟩
    have h₄ : SameMessage (l₃.record r) (l₄.record r) := by
      apply sameMessage_modify
      exact fun _ => ⟨rfl, rfl, rfl, rfl⟩
    exact ((h₁.trans h₂).trans h₃).trans h₄
  · rw [modify_record_of_ne l₃ _ hrm, modify_record_of_ne l₂ _ hrt, modify_record_of_ne l₁ _ hrw,
      modify_record_of_ne l _ hrw]

theorem link_spec (l : TsLists) {core w : ℕ} {xs : List ℕ} (hring : l.links.Ring (l.tsList core) xs)
    (hnodup : xs.Nodup) (hw : w ∉ xs) :
    ∃ l', l.link core w = some l' ∧ l'.links.Ring (some w) (w :: xs) ∧
      (∀ r, SameMessage (l.record r) (l'.record r)) ∧ (∀ r ∉ xs, r ≠ w → l'.record r = l.record r) ∧
      l'.fresh = l.fresh ∧ l'.freeList = l.freeList ∧ l'.tsList = l.tsList := by
  cases hhead : l.tsList core with
  | none =>
    rw [hhead] at hring
    obtain rfl : xs = [] := hring
    unfold TsLists.link
    rw [hhead]
    refine ⟨_, rfl, ⟨rfl, ?_⟩, sameMessage_modify l w fun t => ⟨rfl, rfl, rfl, rfl⟩,
      fun r _ hr => modify_record_of_ne l _ hr, rfl, rfl, rfl⟩
    exact ⟨congrArg TsList.next (modify_record_self l w _), congrArg TsList.prev
      (modify_record_self l w _)⟩
  | some tlp =>
    rw [hhead] at hring
    obtain ⟨m, hm, hprev, -⟩ := hring.head_prev
    have htlp : tlp ∈ xs := by
      cases xs with
      | nil => exact hring.elim
      | cons x xs =>
        obtain ⟨rfl, -⟩ := hring
        exact List.mem_cons_self
    have hother : ∀ x ∈ xs, x ≠ w := by
      rintro x hx rfl
      exact hw hx
    have hwt := hother tlp htlp
    have hwm := hother m hm
    obtain ⟨l', hlink, hnext, hprev', hmessage, hsame, hconfig⟩ := l.link_of_prev hhead hprev hwt
    refine ⟨l', hlink, ?_, hmessage, fun r hr hrw => hsame r (fun h => hr (h ▸ htlp))
      (fun h => hr (h ▸ hm)) hrw, hconfig⟩
    refine hring.insert hnodup hw ⟨⟨?_, ?_⟩, m, hprev, ⟨?_, ?_⟩, fun x hx hxm => ?_, fun x hx hxt =>
      ?_⟩
    · rw [hnext, if_neg hwm.symm, if_pos rfl]
    · rw [hprev', if_pos rfl]
    · rw [hnext, if_pos rfl]
    · rw [hprev', if_neg hwt.symm, if_pos rfl]
    · rw [hnext, if_neg hxm, if_neg (hother x hx)]
    · rw [hprev', if_neg hxt, if_neg (hother x hx)]

theorem Owned.link_new (h : l.Owned place L F) (core : ℕ) :
    ∃ w l₁ l' F', l.newTsList = (w, l₁) ∧ l₁.link core w = some l' ∧
      (l'.setTsList core (some w)).Owned (update place w (.core core))
      (update L core (w :: L core)) F' ∧
      l'.tsList = l.tsList ∧ (∀ c, w ∉ L c) ∧ (l'.record w).terminated = false ∧
      (∀ r ≠ w, SameMessage (l.record r) (l'.record r)) ∧ ∀ r ∉ L core, r ≠ w →
        l'.record r = l.record r := by
  obtain ⟨w, l₁, F', hnew, hloose, htsList, hsame, hterminated⟩ := h.newTsList
  obtain ⟨l', hlink, hring, hmessage, hother, hfresh, hfree, htsList'⟩ :=
    l₁.link_spec (hloose.ring core) (hloose.nodup core) (hloose.loose core)
  refine ⟨w, l₁, l', F', hnew, hlink, ⟨fun c => ?_, ?_, fun c => ?_, hloose.nodup_free, fun c r =>
    ?_, fun r => ?_, fun r => ?_⟩, htsList'.trans htsList, hloose.loose,
      (hmessage w).terminated.trans hterminated, fun r hr => hsame r hr ▸ hmessage r,
    fun r hr hrw => (hother r hr hrw).trans (hsame r hrw)⟩
  · by_cases hc : c = core
    · subst hc
      rw [update_self]
      change l'.links.Ring (if c = c then some w else l'.tsList c) (w :: L c)
      rw [if_pos rfl]
      exact hring
    · rw [update_of_ne hc]
      change l'.links.Ring (if c = core then some w else l'.tsList c) (L c)
      rw [if_neg hc, htsList']
      have hkeep : ∀ r ∈ L c, l'.record r = l₁.record r := by
        intro r hr
        refine hother r (fun hr' => ?_) fun hrw => hloose.loose c (hrw ▸ hr)
        have hplace := (hloose.mem core r).mp hr'
        rw [(hloose.mem c r).mp hr] at hplace
        cases hplace
        exact hc rfl
      exact (hloose.ring c).congr (fun r hr => congrArg TsList.next (hkeep r hr))
        fun r hr => congrArg TsList.prev (hkeep r hr)
  · change l'.links.Chain l'.freeList F'
    rw [hfree]
    refine hloose.chain.congr fun r hr => congrArg TsList.next
      (hother r (fun hr' => ?_) ((hloose.mem_free r).mp hr).1)
    have hplace := ((hloose.mem_free r).mp hr).2
    rw [(hloose.mem core r).mp hr'] at hplace
    cases hplace
  · by_cases hc : c = core
    · subst hc
      rw [update_self]
      exact List.nodup_cons.mpr ⟨hloose.loose c, hloose.nodup c⟩
    · rw [update_of_ne hc]
      exact hloose.nodup c
  · by_cases hr : r = w
    · subst hr
      rw [update_self]
      by_cases hc : c = core
      · subst hc
        rw [update_self]
        exact iff_of_true List.mem_cons_self rfl
      · rw [update_of_ne hc]
        refine iff_of_false (hloose.loose c) fun h => ?_
        cases h
        exact hc rfl
    · rw [update_of_ne hr, ← hloose.mem]
      by_cases hc : c = core
      · subst hc
        rw [update_self]
        exact ⟨fun h => (List.mem_cons.mp h).resolve_left hr, List.mem_cons_of_mem _⟩
      · rw [update_of_ne hc]
  · rw [hloose.mem_free]
    by_cases hr : r = w
    · subst hr
      rw [update_self]
      exact iff_of_false (fun h => h.1 rfl) fun h => by cases h
    · rw [update_of_ne hr]
      exact ⟨And.right, fun h => ⟨hr, h⟩⟩
  · change l'.fresh ≤ r ↔ _
    rw [hfresh, hloose.unallocated]
    by_cases hr : r = w
    · subst hr
      rw [update_self]
      exact iff_of_false (fun h => h.1 rfl) fun h => by cases h
    · rw [update_of_ne hr]
      exact ⟨And.right, fun h => ⟨hr, h⟩⟩

end TsLists

end TraceDecoder
