import TraceDecoder.CAQueue
import TraceDecoder.CARecords
import TraceDecoder.Lib.RingIndex

/-!
# The ring as a list of groups

The queue holds the entries of some groups of the trace in order. What the entries are is told by a
function of the group, so that a search of the queue is a change of that function.
-/

namespace TraceDecoder.CATrace

open RingIndex

/-- The queue holds the groups of the list, with the given entries. -/
structure Queued (item : ℕ → CATraceQItem) (groups : List ℕ) (s : CATrace) : Prop where
  size : s.traceQSize = 512
  out : s.traceQOut < 512
  fits : groups.length < 512
  traceQIn : s.traceQIn = shift 512 s.traceQOut groups.length
  queue : ∀ j g, groups[j]? = some g → s.caTraceQ (shift 512 s.traceQOut j) = item g

variable {item : ℕ → CATraceQItem} {groups : List ℕ} {s : CATrace}

namespace Queued

theorem next_shift (h : Queued item groups s) (j : ℕ) :
    s.next (shift 512 s.traceQOut j) = shift 512 s.traceQOut (j + 1) := by
  rw [next, h.size, shift, shift]
  split_ifs <;> omega

theorem roomQ_eq (h : Queued item groups s) : s.roomQ = 511 - groups.length := by
  have hout := h.out
  have hfits := h.fits
  have hin := h.traceQIn
  rw [shift_eq hout hfits.le] at hin
  rw [roomQ, h.size]
  split_ifs at hin ⊢ <;> omega

/-- An index into the queue is its end only behind the last entry. -/
theorem shift_eq_traceQIn_iff (h : Queued item groups s) {j : ℕ} (hj : j ≤ groups.length) :
    shift 512 s.traceQOut j = s.traceQIn ↔ j = groups.length := by
  have hfits := h.fits
  rw [h.traceQIn]
  exact ⟨shift_inj h.out (by omega) hfits, fun heq => by rw [heq]⟩

theorem of_same {s' : CATrace} (h : Queued item groups s) (hsame : SameQueue s s') :
    Queued item groups s' where
  size := hsame.traceQSize.trans h.size
  out := hsame.traceQOut ▸ h.out
  fits := h.fits
  traceQIn := by rw [hsame.traceQIn, hsame.traceQOut, h.traceQIn]
  queue := by
    rw [hsame.caTraceQ, hsame.traceQOut]
    exact h.queue

theorem push (h : Queued item groups s) (hroom : groups.length + 1 < 512) (g : ℕ) :
    Queued item (groups ++ [g]) { s with caTraceQ := Function.update s.caTraceQ s.traceQIn (item g), traceQIn := s.next s.traceQIn } where
  size := h.size
  out := h.out
  fits := by
    rw [List.length_append]
    exact hroom
  traceQIn := by
    show s.next s.traceQIn = _
    rw [h.traceQIn, h.next_shift, List.length_append]
    rfl
  queue := by
    intro j g' hg'
    have hfits := h.fits
    rcases Nat.lt_trichotomy j groups.length with hlt | heq | hgt
    · rw [List.getElem?_append_left hlt] at hg'
      have hne : shift 512 s.traceQOut j ≠ s.traceQIn := fun heq => by
        rw [h.shift_eq_traceQIn_iff hlt.le] at heq
        omega
      show Function.update s.caTraceQ s.traceQIn (item g) (shift 512 s.traceQOut j) = item g'
      rw [Function.update_of_ne hne, h.queue j g' hg']
    · rw [heq, List.getElem?_concat_length, Option.some.injEq] at hg'
      show Function.update s.caTraceQ s.traceQIn (item g) (shift 512 s.traceQOut j) = item g'
      rw [heq, ← h.traceQIn, Function.update_self, hg']
    · rw [List.getElem?_eq_none (by rw [List.length_append, List.length_singleton]; omega)] at hg'
      cases hg'

theorem update (h : Queued item groups s) (hnodup : groups.Nodup) {j g : ℕ}
    (hj : groups[j]? = some g) (x : CATraceQItem) :
    Queued (Function.update item g x) groups
      { s with caTraceQ := Function.update s.caTraceQ (shift 512 s.traceQOut j) x } where
  size := h.size
  out := h.out
  fits := h.fits
  traceQIn := h.traceQIn
  queue := by
    intro j' g' hg'
    have hfits := h.fits
    obtain ⟨hlt, -⟩ := List.getElem?_eq_some_iff.mp hj
    obtain ⟨hlt', -⟩ := List.getElem?_eq_some_iff.mp hg'
    show Function.update s.caTraceQ (shift 512 s.traceQOut j) x (shift 512 s.traceQOut j') =
      Function.update item g x g'
    by_cases heq : j' = j
    · subst heq
      obtain rfl : g' = g := Option.some.inj (hg'.symm.trans hj)
      rw [Function.update_self, Function.update_self]
    · have hne : shift 512 s.traceQOut j' ≠ shift 512 s.traceQOut j := fun hshift =>
        heq (shift_inj h.out (by omega) (by omega) hshift)
      have hne' : g' ≠ g :=
        fun hg => heq ((List.getElem?_inj hlt' hnodup).mp (hg'.trans (hg ▸ hj.symm)))
      rw [Function.update_of_ne hne, Function.update_of_ne hne', h.queue j' g' hg']

theorem drop (h : Queued item groups s) {n : ℕ} (hn : n ≤ groups.length) :
    Queued item (groups.drop n) { s with traceQOut := shift 512 s.traceQOut n } where
  size := h.size
  out := shift_lt (by decide)
  fits := by
    rw [List.length_drop]
    exact lt_of_le_of_lt (Nat.sub_le _ _) h.fits
  traceQIn := by
    show s.traceQIn = shift 512 (shift 512 s.traceQOut n) _
    rw [h.traceQIn, shift_shift, List.length_drop, Nat.add_sub_cancel' hn]
  queue := by
    intro j g hg
    rw [List.getElem?_drop] at hg
    show s.caTraceQ (shift 512 (shift 512 s.traceQOut n) j) = item g
    rw [shift_shift]
    exact h.queue (n + j) g hg

end Queued

section
variable {α : Type} (visit : CATraceQItem → CATraceQItem × Option α)

def visited (visited : List ℕ) (item : ℕ → CATraceQItem) (g : ℕ) : CATraceQItem :=
  if g ∈ visited then (visit (item g)).1 else item g

theorem visited_nil (item : ℕ → CATraceQItem) : visited visit [] item = item := by
  funext g
  exact if_neg List.not_mem_nil

theorem visited_cons {g : ℕ} {gs : List ℕ} (hg : g ∉ gs) (item : ℕ → CATraceQItem) :
    visited visit (g :: gs) item = visited visit gs
      (Function.update item g (visit (item g)).1) := by
  funext g'
  by_cases heq : g' = g
  · subst heq
    rw [visited, visited, if_pos List.mem_cons_self, if_neg hg, Function.update_self]
  · rw [visited, visited, Function.update_of_ne heq]
    simp only [List.mem_cons, heq, false_or]

/-- The search of the queue from an entry on: it finds nothing and visits all entries, or it stops
at the first that it finds something at. -/
inductive Searched (item : ℕ → CATraceQItem) (front back : List ℕ) (s : CATrace) :
    Option α × ℕ × CATrace → Prop
  | missed (caTraceQ : ℕ → CATraceQItem) (hmiss : ∀ g ∈ back, (visit (item g)).2 = none)
      (hqueued : Queued (visited visit back item) (front ++ back) { s with caTraceQ := caTraceQ }) :
      Searched item front back s (none, s.traceQIn, { s with caTraceQ := caTraceQ })
  | found {before : List ℕ} {g : ℕ} {after : List ℕ} {a : α} (caTraceQ : ℕ → CATraceQItem)
      (hback : back = before ++ g :: after) (hmiss : ∀ g' ∈ before, (visit (item g')).2 = none)
        (hfound : (visit (item g)).2 = some a)
      (hqueued : Queued (visited visit (before ++ [g]) item) (front ++ back)
        { s with caTraceQ := caTraceQ }) :
      Searched item front back s (some a, shift 512 s.traceQOut (front ++ before).length,
        { s with caTraceQ := caTraceQ })

theorem searchQ_searched {front back : List ℕ} {fuel : ℕ} (h : Queued item (front ++ back) s)
    (hnodup : (front ++ back).Nodup) (hfuel : back.length ≤ fuel) :
    Searched visit item front back s
      (searchQ visit fuel (shift 512 s.traceQOut front.length) s) := by
  induction back generalizing front item s fuel with
  | nil =>
    have hend : shift 512 s.traceQOut front.length = s.traceQIn := by
      rw [h.traceQIn, List.append_nil]
    have hdone : searchQ visit fuel (shift 512 s.traceQOut front.length) s =
        (none, s.traceQIn, s) := by
      rw [hend]
      cases fuel with
      | zero => rfl
      | succ n => rw [searchQ, if_pos rfl]
    rw [hdone]
    exact .missed s.caTraceQ (fun g hg => absurd hg List.not_mem_nil) (by rwa [visited_nil])
  | cons g back ih =>
    obtain ⟨n, rfl⟩ : ∃ n, fuel = n + 1 := ⟨fuel - 1, by rw [List.length_cons] at hfuel; omega⟩
    have hg : (front ++ g :: back)[front.length]? = some g := by
      rw [List.getElem?_append_right (Nat.le_refl _), Nat.sub_self]
      rfl
    have hne : shift 512 s.traceQOut front.length ≠ s.traceQIn := by
      rw [Ne, h.shift_eq_traceQIn_iff (by rw [List.length_append]; omega), List.length_append,
        List.length_cons]
      omega
    have hfresh : g ∉ back := (List.nodup_cons.mp (List.nodup_append.mp hnodup).2.1).1
    have hupdate := h.update hnodup hg (visit (item g)).1
    rw [searchQ, if_neg hne, h.queue _ _ hg]
    cases hvisit : (visit (item g)).2 with
    | some a =>
      have hqueued : Queued (visited visit ([] ++ [g]) item) (front ++ g :: back)
          { s with caTraceQ := Function.update s.caTraceQ (shift 512 s.traceQOut front.length) (visit (item g)).1 } := by
        rwa [List.nil_append, visited_cons visit List.not_mem_nil, visited_nil]
      rw [show shift 512 s.traceQOut front.length = shift 512 s.traceQOut
        (front ++ []).length by rw [List.append_nil]] at hqueued ⊢
      exact .found _ rfl (fun g' hg' => absurd hg' List.not_mem_nil) hvisit hqueued
    | none =>
      rw [List.append_cons] at hupdate hnodup
      have hrest :=
        ih hupdate hnodup (show back.length ≤ n by rw [List.length_cons] at hfuel; omega)
      have hitem : ∀ g' ∈ back, Function.update item g (visit (item g)).1 g' = item g' :=
          fun g' hg' =>
        Function.update_of_ne (fun heq : g' = g => hfresh (heq ▸ hg')) _ _
      have hstart : s.next (shift 512 s.traceQOut front.length) = shift 512 s.traceQOut
          (front ++ [g]).length := by
        rw [h.next_shift, List.length_append]
        rfl
      dsimp only
      rw [hstart]
      generalize hr : searchQ visit n (shift 512 s.traceQOut (front ++ [g]).length)
        { s with caTraceQ := Function.update s.caTraceQ (shift 512 s.traceQOut front.length) (visit (item g)).1 } = r at hrest ⊢
      cases hrest with
      | missed caTraceQ hmiss hqueued =>
        rw [List.append_assoc, ← visited_cons visit hfresh] at hqueued
        refine .missed caTraceQ (fun g' hg' => ?_) hqueued
        rcases List.mem_cons.mp hg' with rfl | hmem
        · exact hvisit
        · rw [← hitem g' hmem]
          exact hmiss g' hmem
      | @found before g₁ after a caTraceQ hback hmiss hfound hqueued =>
        have hmem : ∀ g' ∈ before ++ [g₁], g' ∈ back := fun g' hg' => by
          rw [hback]
          rcases List.mem_append.mp hg' with hg' | hg'
          · exact List.mem_append_left _ hg'
          · exact List.mem_append_right _ (List.mem_cons.mpr (.inl (List.mem_singleton.mp hg')))
        have hfresh' : g ∉ before ++ [g₁] := fun hg' => hfresh (hmem g hg')
        rw [List.append_assoc, ← visited_cons visit hfresh'] at hqueued
        have hplace : (front ++ [g] ++ before).length = (front ++ g :: before).length := by
          rw [List.append_assoc]; rfl
        rw [hplace]
        have hsplit : g :: back = (g :: before) ++ g₁ :: after := by rw [hback]; rfl
        refine .found caTraceQ hsplit (fun g' hg' => ?_) ?_ hqueued
        · rcases List.mem_cons.mp hg' with rfl | hmem'
          · exact hvisit
          · rw [← hitem g' (hmem g' (List.mem_append_left _ hmem'))]
            exact hmiss g' hmem'
        · rw [← hitem g₁ (hmem g₁ (List.mem_append_right _ List.mem_cons_self))]
          exact hfound

end

end TraceDecoder.CATrace
