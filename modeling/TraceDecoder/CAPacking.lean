import TraceDecoder.CARewind
import TraceDecoder.Lib.RingIndex

/-!
# Packing the queue

`packQ` moves the entries that are left to the front of the queue, in their order, and ends the
queue behind the first empty entry. So one empty entry stays in the queue if there was any.
-/

namespace TraceDecoder.CATrace

open RingIndex EStateM

structure Ring (s : CATrace) : Prop where
  traceQOut : s.traceQOut < s.traceQSize
  traceQIn : s.traceQIn < s.traceQSize

def contents (s : CATrace) : List CATraceQItem :=
  cells s.caTraceQ s.traceQSize s.traceQOut s.traceQIn

/-- The index of entry `j`. -/
def slot (s : CATrace) (j : ℕ) : ℕ := shift s.traceQSize s.traceQOut j

def isFull (item : CATraceQItem) : Bool := item.record ≠ 0

variable {s : CATrace}

theorem length_contents (s : CATrace) :
    s.contents.length = distance s.traceQSize s.traceQOut s.traceQIn := length_cells ..

namespace Ring

theorem length_lt (h : Ring s) : s.contents.length < s.traceQSize := by
  rw [length_contents]
  exact distance_lt h.traceQIn h.traceQOut

theorem next_eq {i : ℕ} (hi : i < s.traceQSize) : s.next i = shift s.traceQSize i 1 := by
  rw [next, shift_eq hi (by omega)]
  split_ifs <;> omega

theorem next_slot (h : Ring s) (j : ℕ) : s.next (s.slot j) = s.slot (j + 1) := by
  rw [slot, slot, next_eq (shift_lt (Nat.zero_lt_of_lt h.traceQOut)), shift_shift]

theorem slot_zero (h : Ring s) : s.slot 0 = s.traceQOut := shift_zero h.traceQOut

theorem slot_length (h : Ring s) : s.slot s.contents.length = s.traceQIn := by
  have hlt := h.length_lt
  have hout := h.traceQOut
  have hin := h.traceQIn
  rw [slot, shift_eq hout hlt.le]
  rw [length_contents, distance] at hlt ⊢
  split_ifs at hlt ⊢ <;> omega

theorem slot_eq_traceQIn_iff (h : Ring s) {j : ℕ} (hj : j ≤ s.contents.length) :
    s.slot j = s.traceQIn ↔ j = s.contents.length := by
  have hlt := h.length_lt
  rw [← h.slot_length]
  exact ⟨shift_inj h.traceQOut (by omega) hlt, fun heq => by rw [heq]⟩

theorem caTraceQ_slot {j : ℕ} (hj : j < s.contents.length) :
    s.caTraceQ (s.slot j) = s.contents[j] :=
  (getElem_cells s.caTraceQ hj).symm

theorem roomQ_eq (h : Ring s) : s.roomQ = s.traceQSize - 1 - s.contents.length := by
  have hout := h.traceQOut
  have hin := h.traceQIn
  rw [roomQ, length_contents, distance]
  split_ifs <;> omega

theorem seek_eq (h : Ring s) (skip : CATraceQItem → Bool) {n j : ℕ} (hj : j ≤ s.contents.length)
    (hn : s.contents.length ≤ j + n) :
    s.seek skip n (s.slot j) = s.slot (j + ((s.contents.drop j).takeWhile skip).length) := by
  induction n generalizing j with
  | zero =>
    rw [List.drop_eq_nil_of_le (by omega)]
    rfl
  | succ n ih =>
    have hmeets := h.slot_eq_traceQIn_iff hj
    rw [seek]
    by_cases hend : j = s.contents.length
    · rw [if_neg (fun hcond => hcond.1 (hmeets.mpr hend)), List.drop_eq_nil_of_le
        (Nat.le_of_eq hend.symm)]
      rfl
    · have hlt : j < s.contents.length := by omega
      rw [caTraceQ_slot hlt, List.drop_eq_getElem_cons hlt]
      by_cases hskip : skip s.contents[j] = true
      · rw [if_pos ⟨mt hmeets.mp hend, hskip⟩, h.next_slot, ih hlt (by omega),
          List.takeWhile_cons_of_pos hskip, List.length_cons]
        congr 1
        exact Nat.succ_add_eq_add_succ _ _
      · rw [if_neg (fun hcond => hskip hcond.2), List.takeWhile_cons_of_neg hskip]
        rfl

theorem contents_moveQ (h : Ring s) {d e : ℕ} (hd : d < s.contents.length)
    (he : e < s.contents.length) (hne : d ≠ e) : (s.moveQ (s.slot d) (s.slot e)).contents =
      (s.contents.set d s.contents[e]).set e ⟨s.contents[e].cycle, 0, 0, 0, 0, 0⟩ := by
  have hlt := h.length_lt
  have hmoved : Function.update s.caTraceQ (s.slot d) (s.caTraceQ (s.slot e)) (s.slot e) =
      s.contents[e] := by
    have hplace : s.slot e ≠ s.slot d :=
      fun heq => hne (shift_inj h.traceQOut (by omega) (by omega) heq).symm
    rw [Function.update_of_ne hplace, caTraceQ_slot he]
  have hd' := hd
  have he' := he
  rw [length_contents] at hd' he'
  rw [contents, moveQ]
  dsimp only
  rw [hmoved, slot, slot, cells_update _ h.traceQIn h.traceQOut he', cells_update _ h.traceQIn
    h.traceQOut hd', ← slot, caTraceQ_slot he]
  rfl

end Ring

/-! ### The loop -/

theorem not_isFull (item : CATraceQItem) : decide (item.record = 0) = !isFull item := by
  rw [isFull, decide_not, Bool.not_not]

/-- A list up to the first element that a predicate does not hold of. -/
theorem takeWhile_cases {α : Type} (p : α → Bool) (l : List α) :
    ((∀ x ∈ l, p x = true) ∧ l.takeWhile p = l) ∨ ∃ x r, p x = false ∧
      l = l.takeWhile p ++ x :: r := by
  induction l with
  | nil => exact .inl ⟨fun x hx => absurd hx List.not_mem_nil, rfl⟩
  | cons y l ih =>
    by_cases hy : p y = true
    · rw [List.takeWhile_cons_of_pos hy]
      rcases ih with ⟨hall, heq⟩ | ⟨x, r, hx, heq⟩
      · exact .inl ⟨List.forall_mem_cons.mpr ⟨hy, hall⟩, by rw [heq]⟩
      · exact .inr ⟨x, r, hx, by rw [List.cons_append, ← heq]⟩
    · rw [List.takeWhile_cons_of_neg hy]
      exact .inr ⟨y, l, Bool.eq_false_iff.mpr hy, rfl⟩

theorem filter_holes {holes : List CATraceQItem} (h : ∀ x ∈ holes, isFull x = false) :
    holes.filter isFull = [] :=
  List.filter_eq_nil_iff.mpr fun x hx => Bool.eq_false_iff.mp (h x hx)

theorem filter_front {front holes : List CATraceQItem} (hfront : ∀ x ∈ front, isFull x = true)
    (h : ∀ x ∈ holes, isFull x = false) : (front ++ holes).filter isFull = front := by
  rw [List.filter_append, List.filter_eq_self.mpr hfront, filter_holes h, List.append_nil]

/-- Moving an entry into a hole before it, with nothing left in between. -/
theorem filter_moved {front gap back : List CATraceQItem} {hole item : CATraceQItem}
    (hhole : isFull hole = false) (hitem : isFull item = true)
    (hgap : ∀ x ∈ gap, isFull x = false) :
    (front ++ item :: (gap ++ ⟨item.cycle, 0, 0, 0, 0, 0⟩ :: back)).filter isFull =
      (front ++ hole :: (gap ++ item :: back)).filter isFull := by
  have hempty : isFull ⟨item.cycle, 0, 0, 0, 0, 0⟩ = false := rfl
  simp only [List.filter_append, List.filter_cons, filter_holes hgap, hhole, hitem, hempty, if_true,
    Bool.false_eq_true, if_false, List.nil_append]

theorem countP_moved {gap : List CATraceQItem} (back : List CATraceQItem) {item : CATraceQItem}
    (hitem : isFull item = true) (hgap : ∀ x ∈ gap, isFull x = false) :
    ((item :: (gap ++ ⟨item.cycle, 0, 0, 0, 0, 0⟩ :: back)).dropWhile isFull).countP isFull <
    (gap ++ item :: back).countP isFull := by
  have hempty : isFull ⟨item.cycle, 0, 0, 0, 0, 0⟩ = false := rfl
  have hnone : gap.countP isFull = 0 := by
    rw [List.countP_eq_length_filter, filter_holes hgap, List.length_nil]
  have hdrop : ((gap ++ ⟨item.cycle, 0, 0, 0, 0, 0⟩ :: back).dropWhile isFull).countP isFull ≤
      (gap ++ ⟨item.cycle, 0, 0, 0, 0, 0⟩ :: back).countP isFull :=
        (List.dropWhile_sublist isFull).countP_le
  rw [List.countP_append, hnone, List.countP_cons_of_neg (by rw [hempty]; decide)] at hdrop
  rw [List.dropWhile_cons_of_pos hitem, List.countP_append, hnone, List.countP_cons_of_pos hitem]
  omega

theorem packLoop_done {n dst src : ℕ} (h : dst = s.traceQIn ∨ src = s.traceQIn) :
    packLoop n dst src s = (dst, s) := by
  cases n with
  | zero => rfl
  | succ n =>
    rw [packLoop, if_neg]
    rintro ⟨hdst, hsrc⟩
    exact h.elim hdst hsrc

theorem packLoop_full {n dst src : ℕ} (hdst : dst ≠ s.traceQIn) (hsrc : src ≠ s.traceQIn)
    (hseek : s.seek isFull s.traceQSize dst = s.traceQIn) :
    packLoop (n + 1) dst src s = (s.traceQIn, s) := by
  have hseek' : s.seek (fun item => item.record ≠ 0) s.traceQSize dst = s.traceQIn := hseek
  rw [packLoop, if_pos ⟨hdst, hsrc⟩]
  dsimp only
  rw [hseek', if_neg (not_not.mpr rfl), packLoop_done (.inl rfl)]

/-- A turn that meets an empty entry, from where it looks for the next that is not. -/
theorem packLoop_turn {n dst src d e : ℕ} (hdst : dst ≠ s.traceQIn) (hsrc : src ≠ s.traceQIn)
    (hseek : s.seek isFull s.traceQSize dst = d) (hd : d ≠ s.traceQIn)
    (hseek' : s.seek (fun item => !isFull item) s.traceQSize (s.next d) = e) :
    packLoop (n + 1) dst src s = packLoop n d e (if e ≠ s.traceQIn then s.moveQ d e else s) := by
  have hfull : s.seek (fun item => item.record ≠ 0) s.traceQSize dst = d := hseek
  have hempty : s.seek (fun item => item.record = 0) s.traceQSize (s.next d) = e := by
    simp only [not_isFull]
    exact hseek'
  rw [packLoop, if_pos ⟨hdst, hsrc⟩]
  dsimp only
  rw [hfull, if_pos hd, hempty]

/-- Moving the next entry that is left to the first that is empty. -/
theorem Ring.contents_moveQ_append (h : Ring s) {front gap back : List CATraceQItem}
    {hole item : CATraceQItem} (hcontents : s.contents = front ++ hole :: (gap ++ item :: back)) :
    (s.moveQ (s.slot front.length) (s.slot (front.length + 1 + gap.length))).contents =
      front ++ item :: (gap ++ ⟨item.cycle, 0, 0, 0, 0, 0⟩ :: back) := by
  have hlength : s.contents.length = front.length + 1 + gap.length + 1 + back.length := by
    rw [hcontents]
    simp only [List.length_append, List.length_cons]
    omega
  have hitem : s.contents[front.length + 1 + gap.length] = item := by
    simp only [hcontents]
    rw [List.getElem_append_right (by omega)]
    simp only [show front.length + 1 + gap.length - front.length = gap.length + 1 by omega,
      List.getElem_cons_succ, List.getElem_append_right (Nat.le_refl _), Nat.sub_self,
        List.getElem_cons_zero]
  rw [h.contents_moveQ (by omega) (by omega) (by omega), hitem, hcontents, List.set_append_right
    _ _ (Nat.le_refl _), Nat.sub_self, List.set_cons_zero, List.set_append_right _ _ (by omega),
      show front.length + 1 + gap.length - front.length = gap.length + 1 by omega,
    List.set_cons_succ, List.set_append_right _ _ (Nat.le_refl _), Nat.sub_self, List.set_cons_zero]

/-- The loop, when the entries of `front` are in their places. -/
theorem Ring.packLoop_eq {n src : ℕ} {front back : List CATraceQItem} (h : Ring s)
    (hcontents : s.contents = front ++ back)
    (hfront : ∀ x ∈ front, isFull x = true) (hsrc : src = s.traceQIn → ∀ x ∈ back, isFull x = false)
    (hn : src ≠ s.traceQIn → (back.dropWhile isFull).countP isFull < n) :
    ∃ caTraceQ holes, packLoop n (s.slot front.length) src s =
      (s.slot (s.contents.filter isFull).length, { s with caTraceQ := caTraceQ }) ∧
      contents { s with caTraceQ := caTraceQ } = s.contents.filter isFull ++ holes ∧ ∀ x ∈ holes,
        isFull x = false := by
  have hdone (hall : ∀ x ∈ back, isFull x = false) : s.contents.filter isFull = front := by
    rw [hcontents, filter_front hfront hall]
  induction n generalizing s src front back with
  | zero =>
    have hall : ∀ x ∈ back, isFull x = false := by
      apply hsrc
      by_contra hne
      exact absurd (hn hne) (Nat.not_lt_zero _)
    refine ⟨s.caTraceQ, back, ?_, ?_, hall⟩
    · rw [hdone hall]
      rfl
    · rw [hdone hall]
      exact hcontents
  | succ n ih =>
    have hlt := h.length_lt
    have hlength : s.contents.length = front.length + back.length := by
      rw [hcontents, List.length_append]
    by_cases hend : src = s.traceQIn
    · refine ⟨s.caTraceQ, back, ?_, ?_, hsrc hend⟩
      · rw [hdone (hsrc hend), packLoop_done (.inr hend)]
      · rw [hdone (hsrc hend)]
        exact hcontents
    by_cases hempty : s.slot front.length = s.traceQIn
    · have hnil : back = [] := by
        rw [h.slot_eq_traceQIn_iff (by omega), hlength] at hempty
        exact List.length_eq_zero_iff.mp (by omega)
      have hall : ∀ x ∈ back, isFull x = false := fun x hx => absurd (hnil ▸ hx) List.not_mem_nil
      refine ⟨s.caTraceQ, back, ?_, ?_, hall⟩
      · rw [hdone hall, packLoop_done (.inl hempty)]
      · rw [hdone hall]
        exact hcontents
    have hseek : s.seek isFull s.traceQSize (s.slot front.length) =
        s.slot (front.length + (back.takeWhile isFull).length) := by
      rw [h.seek_eq isFull (by omega) (by omega), hcontents, List.drop_left' rfl]
    rcases takeWhile_cases isFull back with ⟨hall, heq⟩ | ⟨hole, rest, hhole, heq⟩
    · have hplace : s.slot (front.length + (back.takeWhile isFull).length) = s.traceQIn := by
        rw [heq, ← hlength, h.slot_length]
      have hfull : s.contents.filter isFull = s.contents := by
        rw [hcontents, List.filter_append, List.filter_eq_self.mpr hfront, List.filter_eq_self.mpr
          hall]
      rw [packLoop_full hempty hend (hseek.trans hplace), hfull, h.slot_length]
      exact ⟨s.caTraceQ, [], rfl, (List.append_nil _).symm, fun x hx => absurd hx List.not_mem_nil⟩
    · -- The entries up to the hole are in their places too.
      have hkeep : ∀ x ∈ front ++ back.takeWhile isFull, isFull x = true := fun x hx => by
        rcases List.mem_append.mp hx with hx | hx
        · exact hfront x hx
        · exact List.all_eq_true.mp List.all_takeWhile x hx
      have hsplit : s.contents = (front ++ back.takeWhile isFull) ++ hole :: rest := by
        rw [hcontents, List.append_assoc, ← heq]
      have hcount : (back.dropWhile isFull).countP isFull = rest.countP isFull := by
        rw [heq, List.dropWhile_append_of_pos (List.all_eq_true.mp List.all_takeWhile),
          List.dropWhile_cons_of_neg (by simp [hhole]), List.countP_cons_of_neg (by simp [hhole])]
      rw [← List.length_append] at hseek
      generalize front ++ back.takeWhile isFull = front' at hseek hkeep hsplit
      have hlength' : s.contents.length = front'.length + 1 + rest.length := by
        rw [hsplit, List.length_append, List.length_cons]
        omega
      have hd : s.slot front'.length ≠ s.traceQIn := by
        rw [Ne, h.slot_eq_traceQIn_iff (by omega)]
        omega
      have hseek' : s.seek (fun item => !isFull item) s.traceQSize (s.next (s.slot front'.length)) =
          s.slot (front'.length + 1 + (rest.takeWhile fun item => !isFull item).length) := by
        rw [h.next_slot, h.seek_eq _ (by omega) (by omega), hsplit, ← List.singleton_append,
          ← List.append_assoc, List.drop_left' (by rw [List.length_append, List.length_singleton])]
      rw [packLoop_turn hempty hend hseek hd hseek']
      rcases takeWhile_cases (fun item => !isFull item) rest with ⟨hall, heq'⟩ | ⟨item, rest',
        hitem, heq'⟩
      · have hall' : ∀ x ∈ rest, isFull x = false := fun x hx => Bool.not_eq_true' _ ▸ hall x hx
        have hkept' : s.contents.filter isFull = front' := by
          rw [hsplit, filter_front hkeep (List.forall_mem_cons.mpr ⟨hhole, hall'⟩)]
        have hplace : s.slot (front'.length + 1 +
            (rest.takeWhile fun item => !isFull item).length) = s.traceQIn := by
          rw [heq', ← hlength', h.slot_length]
        rw [hplace, if_neg (not_not.mpr rfl), packLoop_done (.inr rfl), hkept']
        exact ⟨s.caTraceQ, hole :: rest, rfl, hsplit, List.forall_mem_cons.mpr ⟨hhole, hall'⟩⟩
      · -- An entry is moved into the hole.
        have hgap : ∀ x ∈ rest.takeWhile (fun item => !isFull item), isFull x = false := fun x hx =>
          Bool.not_eq_true' _ ▸ List.all_eq_true.mp List.all_takeWhile x hx
        rw [Bool.not_eq_false'] at hitem
        have hlength'' : rest.length = (rest.takeWhile fun item => !isFull item).length + 1 +
            rest'.length := by
          rw [congrArg List.length heq', List.length_append, List.length_cons]
          omega
        generalize rest.takeWhile (fun item => !isFull item) = gap at heq' hgap hlength''
        subst heq'
        have hplace : s.slot (front'.length + 1 + gap.length) ≠ s.traceQIn := by
          rw [Ne, h.slot_eq_traceQIn_iff (by omega)]
          omega
        have hmoved := h.contents_moveQ_append hsplit
        have hfilter :
            (s.moveQ (s.slot front'.length)
            (s.slot (front'.length + 1 + gap.length))).contents.filter isFull = s.contents.filter
              isFull := by
          rw [hmoved, hsplit, filter_moved hhole hitem hgap]
        have hless := countP_moved rest' hitem hgap
        have hbefore := hn hend
        rw [hcount] at hbefore
        obtain ⟨caTraceQ, holes, hloop, hpacked, hholes⟩ :=
          ih (s := s.moveQ (s.slot front'.length) (s.slot (front'.length + 1 + gap.length)))
            ⟨h.traceQOut, h.traceQIn⟩ hmoved hkeep (fun heq => absurd heq hplace)
            (fun _ => by omega)
          (fun hall => absurd hitem (by rw [hall item List.mem_cons_self]; decide))
        rw [hfilter] at hloop hpacked
        rw [if_pos hplace]
        exact ⟨caTraceQ, holes, hloop, hpacked, hholes⟩

/-- **Packing** keeps what is left, in order, and at most one empty entry behind it. -/
theorem Ring.packQ_eq (h : Ring s) : ∃ caTraceQ traceQIn holes, packQ s = .ok ()
    { s with caTraceQ := caTraceQ, traceQIn := traceQIn } ∧
    Ring { s with caTraceQ := caTraceQ, traceQIn := traceQIn } ∧
    contents { s with caTraceQ := caTraceQ, traceQIn := traceQIn } = s.contents.filter isFull ++
      holes ∧
    (∀ x ∈ holes, isFull x = false) ∧ holes.length ≤ 1 := by
  have hlt := h.length_lt
  have hstart : s.traceQOut = s.traceQIn → ∀ x ∈ s.contents, isFull x = false := by
    intro heq x hx
    rw [contents, heq, cells_self] at hx
    exact absurd hx List.not_mem_nil
  have hcount : (s.contents.dropWhile isFull).countP isFull < s.traceQSize + 1 := by
    have hle := List.countP_le_length (p := isFull) (l := s.contents.dropWhile isFull)
    have hdrop := (List.dropWhile_sublist isFull (l := s.contents)).length_le
    omega
  obtain ⟨caTraceQ, holes, hloop, hpacked, hholes⟩ :=
    h.packLoop_eq (List.nil_append s.contents).symm (fun x hx => absurd hx List.not_mem_nil) hstart
      fun _ => hcount
  have hring : Ring { s with caTraceQ := caTraceQ } := ⟨h.traceQOut, h.traceQIn⟩
  have hlength : (contents { s with caTraceQ := caTraceQ }).length = s.contents.length := by
    rw [length_contents, length_contents]
  rw [List.length_nil, h.slot_zero] at hloop
  rw [packQ, hloop]
  dsimp only
  cases holes with
  | nil =>
    rw [List.append_nil] at hpacked
    have hend : s.slot (s.contents.filter isFull).length = s.traceQIn := by
      rw [← hpacked, hlength, h.slot_length]
    rw [if_neg (not_not.mpr hend)]
    exact ⟨caTraceQ, s.traceQIn, [], rfl, hring, by rw [hpacked, List.append_nil], hholes,
      Nat.zero_le 1⟩
  | cons hole holes =>
    have hlength' := hlength
    rw [hpacked, List.length_append, List.length_cons] at hlength'
    have hend : s.slot (s.contents.filter isFull).length ≠ s.traceQIn := by
      rw [Ne, h.slot_eq_traceQIn_iff (by omega)]
      omega
    have hnext : next { s with caTraceQ := caTraceQ } (s.slot (s.contents.filter isFull).length) =
        s.slot ((s.contents.filter isFull).length + 1) := hring.next_slot _
    rw [if_pos hend, hnext]
    refine ⟨caTraceQ, _, [hole], rfl, ⟨h.traceQOut, shift_lt (Nat.zero_lt_of_lt h.traceQOut)⟩, ?_,
      ?_, Nat.le_refl 1⟩
    · have hle : (s.contents.filter isFull).length + 1 ≤ distance s.traceQSize s.traceQOut
          s.traceQIn := by
        rw [← length_contents]
        omega
      have htake : contents { s with caTraceQ := caTraceQ, traceQIn := s.slot ((s.contents.filter isFull).length + 1) } =
          (contents { s with caTraceQ := caTraceQ }).take ((s.contents.filter isFull).length + 1) :=
        cells_take caTraceQ h.traceQIn h.traceQOut hle
      rw [htake, hpacked, List.take_append, List.take_of_length_le (by omega),
        Nat.add_sub_cancel_left]
      rfl
    · intro x hx
      rw [List.mem_singleton.mp hx]
      exact hholes hole List.mem_cons_self

end TraceDecoder.CATrace
