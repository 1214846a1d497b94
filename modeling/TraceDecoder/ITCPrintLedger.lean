import TraceDecoder.ITCPrintOverrun
import TraceDecoder.ITCPrintUnlink

/-!
# The lists over a run of calls

Only the newest message of a core can be in progress, and the number of messages is at least that of
the terminated records. As long as nothing is taken off a list of three or more records, the lists
stay linked and a call on one core leaves the messages of the others alone.
-/

namespace TraceDecoder

namespace ITCPrint

open Function TsLists

variable {p p' : ITCPrint} {place : ℕ → Place} {L : ℕ → List ℕ} {F : List ℕ} {core : ℕ}
    {tstamp : TIMESTAMP}

/-- The lists of an object; only the newest record of a core can be unterminated. -/
structure Listed (p : ITCPrint) (place : ℕ → Place) (L : ℕ → List ℕ) (F : List ℕ) : Prop where
  owned : p.lists.Owned place L F
  older : ∀ c, ∀ r ∈ (L c).tail, (p.lists.record r).terminated = true

/-- A call on `core` leaves the lists of the other cores and their records as they are. -/
structure Leaves (p p' : ITCPrint) (L L' : ℕ → List ℕ) (core : ℕ) : Prop where
  lists : ∀ c ≠ core, L' c = L c
  tsList : ∀ c ≠ core, p'.lists.tsList c = p.lists.tsList c
  record : ∀ c ≠ core, ∀ r ∈ L c, p'.lists.record r = p.lists.record r

def terminated (p : ITCPrint) (xs : List ℕ) : ℕ := xs.countP fun r => (p.lists.record r).terminated

theorem Listed.terminated_eq (h : p.Listed place L F) (c : ℕ) :
    p.terminated (L c) + (if p.inProgress c then 1 else 0) = (L c).length := by
  have hring := h.owned.ring c
  have holder := h.older c
  rw [terminated, inProgress]
  cases hL : L c with
  | nil =>
    rw [hL] at hring
    rw [Links.ring_nil_iff.mp hring]
    rfl
  | cons a xs =>
    rw [hL] at hring holder
    have hall : xs.countP (fun r => (p.lists.record r).terminated) = xs.length :=
      List.countP_eq_length.mpr holder
    rw [(Links.ring_cons_iff.mp hring).1, List.countP_cons, hall, List.length_cons]
    cases ht : (p.lists.record a).terminated <;> simp [ht]

/-! ### Printing -/

theorem newMessage_owned (h : p.lists.Owned place L F) (core : ℕ) (tstamp : TIMESTAMP) :
    ∃ w l F', p.newMessage core tstamp = some (w, l) ∧
      l.Owned (update place w (.core core)) (update L core (w :: L core)) F' ∧
        l.tsList core = some w ∧
      (∀ c ≠ core, l.tsList c = p.lists.tsList c) ∧ (l.record w).terminated = false ∧
      (∀ c, w ∉ L c) ∧ (∀ r ≠ w, SameMessage (p.lists.record r) (l.record r)) ∧
      ∀ r ∉ L core, r ≠ w → l.record r = p.lists.record r := by
  obtain ⟨w, l₁, l', F', hnew, hlink, howned, htsList, hw, hterminated, hmessage, hother⟩ :=
    h.link_new core
  set f : TsList → TsList :=
    fun t => { t with startTime := tstamp, message := some (p.queue core).pbi }
  have hrecord : ∀ r ≠ w, ((l'.modify w f).setTsList core (some w)).record r = l'.record r :=
    fun r hr => modify_record_of_ne l' f hr
  refine ⟨w, (l'.modify w f).setTsList core (some w), F', ?_, howned.modify w (f := f) fun _ =>
    ⟨rfl, rfl⟩, if_pos rfl, fun c hc => (if_neg hc).trans (congrFun htsList c), ?_, hw,
      fun r hr => hrecord r hr ▸ hmessage r hr,
    fun r hr hrw => (hrecord r hrw).trans (hother r hr hrw)⟩
  · simp only [ITCPrint.newMessage, hnew, hlink, Option.map_some]
    rfl
  · exact (congrArg TsList.terminated (modify_record_self l' w f)).trans hterminated

theorem Listed.terminate (h : p.Listed place L F) (core : ℕ) :
    (p.terminate core).Listed place L F ∧ (p.terminate core).lists.tsList = p.lists.tsList ∧
      (∀ r ∈ L core, ((p.terminate core).lists.record r).terminated = true) ∧
      ∀ r ∉ L core, (p.terminate core).lists.record r = p.lists.record r := by
  have hring := h.owned.ring core
  have holder := h.older core
  unfold ITCPrint.terminate
  cases hL : L core with
  | nil =>
    rw [hL] at hring
    rw [Links.ring_nil_iff.mp hring]
    exact ⟨h, rfl, List.forall_mem_nil _, fun _ _ => rfl⟩
  | cons a xs =>
    rw [hL] at hring holder
    rw [(Links.ring_cons_iff.mp hring).1]
    dsimp only
    split_ifs with ha
    · exact ⟨h, rfl, List.forall_mem_cons.mpr ⟨ha, holder⟩, fun _ _ => rfl⟩
    · set f : TsList → TsList := fun t => { t with terminated := true }
      have hself : ((p.lists.modify a f).record a).terminated = true :=
        congrArg TsList.terminated (modify_record_self p.lists a f)
      have hkeep : ∀ r, (p.lists.record r).terminated = true →
          ((p.lists.modify a f).record r).terminated = true := by
        intro r hr
        by_cases hra : r = a
        · rw [hra]
          exact hself
        · rw [modify_record_of_ne p.lists f hra]
          exact hr
      refine ⟨⟨h.owned.modify a (f := f) fun _ => ⟨rfl, rfl⟩, fun c r hr =>
        hkeep r (h.older c r hr)⟩, rfl, List.forall_mem_cons.mpr
          ⟨hself, fun r hr => hkeep r (holder r hr)⟩, fun r hr => ?_⟩
      refine modify_record_of_ne p.lists f ?_
      rintro rfl
      exact hr List.mem_cons_self

def ended (p : ITCPrint) (core : ℕ) : PrintPath → ℕ
  | .ignored => 0
  | .nls _ => (if p.inProgress core then 1 else 0) + 1
  | .data bytes =>
    if (PrintQueue.stored bytes ((p.queue core).roomInITCPrintQ p.buffSize)).contains 0x00
      then 1 else 0

theorem mem_tail_update {w : ℕ} {xs : List ℕ} {c r : ℕ}
    (hr : r ∈ (update L core (w :: xs) c).tail) :
    r ∈ if c = core then xs else (L c).tail := by
  by_cases hc : c = core
  · rw [hc, update_self] at hr
    rwa [if_pos hc]
  · rw [update_of_ne hc] at hr
    rwa [if_neg hc]

theorem Listed.printNls (h : p.Listed place L F) (core : ℕ) (text : List Byte)
    (tstamp : TIMESTAMP) :
    ∃ p' place' L' F', p.printNls core text tstamp = some p' ∧ p'.Listed place' L' F' ∧
      Leaves p p' L L' core ∧
      p'.terminated (L' core) = p.terminated (L core) + p.ended core (.nls text) := by
  obtain ⟨hlisted, htsList, hall, hother⟩ := h.terminate core
  obtain ⟨w, l, F', hnew, howned, hhead, htsList', -, hw, hmessage, hother'⟩ :=
    newMessage_owned hlisted.owned core tstamp
  set f : TsList → TsList := fun t => { t with endTime := tstamp, terminated := true }
  have hrecord : ∀ r ≠ w, (l.modify w f).record r = l.record r :=
    fun r hr => modify_record_of_ne l f hr
  have hold : ∀ r, ((p.terminate core).lists.record r).terminated = true →
      ((l.modify w f).record r).terminated = true := by
    intro r hr
    by_cases hrw : r = w
    · exact congrArg TsList.terminated (if_pos hrw)
    · rw [hrecord r hrw, (hmessage r hrw).terminated]
      exact hr
  obtain ⟨p', hp'⟩ : ∃ p', p.printNls core text tstamp = some p' :=
    ⟨_, by rw [ITCPrint.printNls, hnew]; rfl⟩
  have hlists : p'.lists = l.modify w f := by
    rw [ITCPrint.printNls, hnew] at hp'
    obtain rfl := Option.some.inj hp'
    rfl
  have hlisted' : p'.Listed (update place w (.core core)) (update L core (w :: L core)) F' := by
    refine ⟨hlists ▸ howned.modify w (f := f) fun _ => ⟨rfl, rfl⟩, fun c r hr => ?_⟩
    have hr := mem_tail_update hr
    rw [hlists]
    split_ifs at hr with hc
    · exact hold r (hall r hr)
    · exact hold r (hlisted.older c r hr)
  have hprogress : p'.inProgress core = false := by
    have hterminated : ((l.modify w f).record w).terminated = true :=
      congrArg TsList.terminated (if_pos rfl)
    have hhead' : (l.modify w f).tsList core = some w := hhead
    rw [inProgress, hlists, hhead']
    simp only [hterminated, Bool.not_true]
  refine ⟨p', _, _, F', hp', hlisted', ⟨fun c hc => update_of_ne hc .., fun c hc => ?_,
    fun c hc r hr => ?_⟩, ?_⟩
  · rw [hlists]
    exact (htsList' c hc).trans (congrFun htsList c)
  · have hcore := h.owned.not_mem hr (Ne.symm hc)
    have hrw : r ≠ w := by
      rintro rfl
      exact hw c hr
    rw [hlists, hrecord r hrw, hother' r hcore hrw, hother r hcore]
  · have hbefore := h.terminated_eq core
    have hafter := hlisted'.terminated_eq core
    rw [hprogress, update_self, List.length_cons] at hafter
    rw [update_self]
    dsimp only [ended]
    simp only [Bool.false_eq_true, if_false] at hafter
    omega

theorem Listed.not_inProgress (h : p.Listed place L F) (hprogress : p.inProgress core = false)
    (tstamp : TIMESTAMP) :
    (∀ r ∈ L core, (p.lists.record r).terminated = true) ∧ p.workingTsList core tstamp =
      p.newMessage core tstamp := by
  have hring := h.owned.ring core
  have holder := h.older core
  unfold inProgress at hprogress
  unfold ITCPrint.workingTsList
  cases hL : L core with
  | nil =>
    rw [hL] at hring
    rw [Links.ring_nil_iff.mp hring]
    exact ⟨List.forall_mem_nil _, rfl⟩
  | cons a xs =>
    rw [hL] at hring holder
    rw [(Links.ring_cons_iff.mp hring).1] at hprogress ⊢
    have ha : (p.lists.record a).terminated = true := by simpa using hprogress
    exact ⟨List.forall_mem_cons.mpr ⟨ha, holder⟩, if_pos ha⟩

/-- The record a print of the plain path goes to: it is at the head of the
list, and not terminated. -/
structure Working (p : ITCPrint) (L L' : ℕ → List ℕ) (core w : ℕ) (l : TsLists) (xs : List ℕ) :
    Prop where
  list : L' core = w :: xs
  lists : ∀ c ≠ core, L' c = L c
  head : l.tsList core = some w
  tsList : ∀ c ≠ core, l.tsList c = p.lists.tsList c
  unterminated : (l.record w).terminated = false
  older : ∀ r ∈ xs, (l.record r).terminated = true
  record : ∀ c ≠ core, ∀ r ∈ L c, r ≠ w ∧ l.record r = p.lists.record r
  length : (L' core).length = (L core).length + (if p.inProgress core then 0 else 1)

theorem Listed.workingTsList (h : p.Listed place L F) (core : ℕ) (tstamp : TIMESTAMP) :
    ∃ w l place' L' F' xs, p.workingTsList core tstamp = some (w, l) ∧ l.Owned place' L' F' ∧
      p.Working L L' core w l xs := by
  cases hprogress : p.inProgress core with
  | false =>
    obtain ⟨hall, hworking⟩ := h.not_inProgress hprogress tstamp
    obtain ⟨w, l, F', hnew, howned, hhead, htsList, hfalse, hw, hmessage, hother⟩ :=
      newMessage_owned h.owned core tstamp
    have hne : ∀ c, ∀ r ∈ L c, r ≠ w := by
      rintro c r hr rfl
      exact hw c hr
    refine ⟨w, l, _, _, F', L core, hworking.trans hnew, howned,
      ⟨update_self .., fun c hc => update_of_ne hc .., hhead, htsList, hfalse, fun r hr => ?_,
        fun c hc r hr => ?_, ?_⟩⟩
    · rw [(hmessage r (hne core r hr)).terminated]
      exact hall r hr
    · exact ⟨hne c r hr, hother r (h.owned.not_mem hr (Ne.symm hc)) (hne c r hr)⟩
    · rw [update_self, hprogress]
      rfl
  | true =>
    have hring := h.owned.ring core
    have hprogress' := hprogress
    unfold inProgress at hprogress'
    cases hhead : p.lists.tsList core with
    | none =>
      rw [hhead] at hprogress'
      cases hprogress'
    | some a =>
      rw [hhead] at hring hprogress'
      have ha : (p.lists.record a).terminated = false := by simpa using hprogress'
      obtain ⟨xs, hL⟩ : ∃ xs, L core = a :: xs := by
        cases hL : L core with
        | nil =>
          rw [hL] at hring
          exact hring.elim
        | cons x xs =>
          rw [hL] at hring
          exact ⟨xs, congrArg (· :: xs) hring.1⟩
      refine ⟨a, p.lists, place, L, F, xs, ?_, h.owned, ⟨hL, fun _ _ => rfl, hhead, fun _ _ => rfl,
        ha, fun r hr => ?_, fun c hc r hr => ⟨?_, rfl⟩, ?_⟩⟩
      · unfold ITCPrint.workingTsList
        rw [hhead]
        exact if_neg (by rw [ha]; exact Bool.false_ne_true)
      · exact h.older core r (by rw [hL]; exact hr)
      · rintro rfl
        exact h.owned.not_mem hr (Ne.symm hc) (by rw [hL]; exact List.mem_cons_self)
      · rw [hprogress]
        rfl

theorem Listed.printData (h : p.Listed place L F) (core : ℕ) (bytes : List Byte)
    (tstamp : TIMESTAMP) :
    ∃ p' place' L' F', p.printData core bytes tstamp = some p' ∧ p'.Listed place' L' F' ∧
      Leaves p p' L L' core ∧
      p'.terminated (L' core) = p.terminated (L core) + p.ended core (.data bytes) := by
  obtain ⟨w, l, place', L', F', xs, hworking, howned, hw⟩ := h.workingTsList core tstamp
  set ends :=
    (PrintQueue.stored bytes ((p.queue core).roomInITCPrintQ p.buffSize)).contains 0x00 with hends
  set f : TsList → TsList :=
    fun t => { t with endTime := tstamp, terminated := t.terminated || ends }
  obtain ⟨p', hp'⟩ : ∃ p', p.printData core bytes tstamp = some p' :=
    ⟨_, by rw [ITCPrint.printData, hworking]; rfl⟩
  have hlists : p'.lists = l.modify w f := by
    rw [ITCPrint.printData, hworking] at hp'
    obtain rfl := Option.some.inj hp'
    dsimp only
    rw [PrintQueue.putData_eq]
    rfl
  have hrecord : ∀ r ≠ w, (l.modify w f).record r = l.record r :=
    fun r hr => modify_record_of_ne l f hr
  have hother : ∀ c ≠ core, ∀ r ∈ L c, (l.modify w f).record r = p.lists.record r :=
      fun c hc r hr =>
    (hrecord r (hw.record c hc r hr).1).trans (hw.record c hc r hr).2
  have hxs : ∀ r ∈ xs, r ≠ w := by
    rintro r hr rfl
    exact (List.nodup_cons.mp (hw.list ▸ howned.nodup core)).1 hr
  have hlisted' : p'.Listed place' L' F' := by
    refine ⟨hlists ▸ howned.modify w (f := f) fun _ => ⟨rfl, rfl⟩, fun c r hr => ?_⟩
    rw [hlists]
    by_cases hc : c = core
    · rw [hc, hw.list] at hr
      rw [hrecord r (hxs r hr)]
      exact hw.older r hr
    · rw [hw.lists c hc] at hr
      rw [hother c hc r (List.mem_of_mem_tail hr)]
      exact h.older c r hr
  have hprogress : p'.inProgress core = !ends := by
    have hterminated : ((l.modify w f).record w).terminated = ends := by
      refine (congrArg TsList.terminated (modify_record_self l w f)).trans ?_
      change ((l.record w).terminated || ends) = ends
      rw [hw.unterminated, Bool.false_or]
    have hhead : (l.modify w f).tsList core = some w := hw.head
    rw [inProgress, hlists, hhead]
    simp only [hterminated]
  refine ⟨p', place', L', F', hp', hlisted', ⟨hw.lists, fun c hc => ?_, fun c hc r hr => ?_⟩, ?_⟩
  · rw [hlists]
    exact hw.tsList c hc
  · rw [hlists]
    exact hother c hc r hr
  · have hbefore := h.terminated_eq core
    have hafter := hlisted'.terminated_eq core
    rw [hprogress, hw.length] at hafter
    have hended : p.ended core (.data bytes) = if ends then 1 else 0 := rfl
    rw [hended]
    clear_value ends
    cases ends <;> cases hprogress' : p.inProgress core <;>
      simp only [hprogress', Bool.not_true, Bool.not_false, Bool.false_eq_true, if_true,
        if_false] at hbefore hafter ⊢ <;> omega

end ITCPrint

end TraceDecoder
