import TraceDecoder.CAGroups

/-!
# Searches of a vector trace

A search visits the groups from a start on, in the queue and in the words that are read behind it,
up to the first at which it finds something. What it has done is told by what is left of every group
of the trace.
-/

namespace TraceDecoder.CATrace

open RingIndex EStateM

variable {b : List Byte} {k W : ℕ} {item : ℕ → CATraceQItem} {groups : List ℕ} {s : CATrace}

section
variable {α : Type} (visit : CATraceQItem → CATraceQItem × Option α)

/-- A visit finds something only in the record of an entry, which it changes only then. -/
structure FindsInRecord : Prop where
  empty : ∀ x : CATraceQItem, x.record = 0 → (visit x).2 = none
  keeps : ∀ x : CATraceQItem, (visit x).2 = none → (visit x).1.record = x.record
  cycle : ∀ x : CATraceQItem, (visit x).1.cycle = x.cycle

/-- The entries after the groups from `g₀` on and before `e` have been visited. -/
def visitedIn (g₀ e : ℕ) (item : ℕ → CATraceQItem) (g : ℕ) : CATraceQItem :=
  if g₀ ≤ g ∧ g < e then (visit (item g)).1 else item g

/-- The first group from `g₀` on at which a visit finds something. -/
def nextFound (k : ℕ) (item : ℕ → CATraceQItem) (g₀ : ℕ) : Option ℕ :=
  nextPosition (fun g => (visit (item g)).2.isSome) g₀ (160 * k)

/-- The index `i` of the queue is where the groups from `g₀` on begin. -/
structure At (g₀ : ℕ) (front back : List ℕ) (s : CATrace) (i : ℕ) : Prop where
  index : i = shift 512 s.traceQOut front.length
  front : ∀ g ∈ front, g < g₀
  back : ∀ g ∈ back, g₀ ≤ g

/-- What a search that succeeds does: it stops at the first group at which it finds something. -/
structure Found (b : List Byte) (k : ℕ) (item : ℕ → CATraceQItem) (g₀ : ℕ) (s : CATrace) (a : α)
    (i g : ℕ) (front back : List ℕ) (W : ℕ) (s' : CATrace) : Prop where
  next : nextFound visit k item g₀ = some g
  found : (visit (item g)).2 = some a
  tracks : Tracks b k (visitedIn visit g₀ (g + 1) item) (front ++ g :: back) W s'
  index : i = shift 512 s'.traceQOut front.length
  out : s'.traceQOut = s.traceQOut

variable {visit}

/-- Behind a search of the queue the trace is as if all groups passed had been visited. -/
theorem Tracks.visited (hvisit : FindsInRecord visit) (h : Tracks b k item groups W s) {g₀ e : ℕ}
    (he : e ≤ 5 * W) {passed : List ℕ}
    (hpassed : ∀ g ∈ groups, g ∈ passed ↔ g₀ ≤ g ∧ g < e) (hsub : ∀ g ∈ passed, g ∈ groups)
    {caTraceQ : ℕ → CATraceQItem}
    (hqueued : Queued (CATrace.visited visit passed item) groups { s with caTraceQ := caTraceQ }) :
    Tracks b k (visitedIn visit g₀ e item) groups W { s with caTraceQ := caTraceQ } := by
  obtain ⟨R, hloaded, hoffset, hW⟩ := h.words
  have hin : ∀ g, g ∈ passed → g < 5 * W := fun g hg => h.read g (hsub g hg)
  have htracks : Tracks b k (CATrace.visited visit passed item) groups W
      { s with caTraceQ := caTraceQ } := by
    refine ⟨h.caType, hqueued, ⟨R, ⟨hloaded.1, hloaded.2, hloaded.3, hloaded.4, hloaded.5,
      hloaded.6, hloaded.7⟩, hoffset, hW⟩, h.sorted, h.read, ?_, ?_⟩
    · intro g hg hmem
      rw [CATrace.visited, if_neg fun hp => hmem (hsub g hp)]
      exact h.dropped g hg hmem
    · intro g hg
      rw [CATrace.visited, if_neg fun hp => Nat.not_lt.mpr hg (hin g hp)]
      exact h.fresh g hg
  refine htracks.congr ?_ ?_ ?_
  · intro g hg
    simp only [visitedIn, CATrace.visited, hpassed g hg]
  · intro g hg hmem
    have hzero := h.dropped g hg hmem
    rw [visitedIn]
    split_ifs
    · rw [hvisit.keeps _ (hvisit.empty _ hzero), hzero]
    · exact hzero
  · intro g hg
    rw [visitedIn, CATrace.visited, if_neg (by omega), if_neg fun hp => Nat.not_lt.mpr
      hg (hin g hp)]

/-- Groups that are not in the queue are not found before the words still to be read. -/
theorem Tracks.not_found (hvisit : FindsInRecord visit) (h : Tracks b k item groups W s) {g : ℕ}
    (hg : g < 5 * W)
    (hgroups : g ∈ groups → (visit (item g)).2 = none) : (visit (item g)).2.isSome = false := by
  by_cases hmem : g ∈ groups
  · rw [hgroups hmem]
    rfl
  · rw [hvisit.empty _ (h.dropped g hg hmem)]
    rfl

theorem At.mem_passed {front before after : List ℕ} {g₀ g i : ℕ}
    (hat : At g₀ front (before ++ g :: after) s i)
    (hsorted : (front ++ (before ++ g :: after)).Pairwise (· < ·)) {g' : ℕ}
    (hg' : g' ∈ front ++ (before ++ g :: after)) :
    g' ∈ before ++ [g] ↔ g₀ ≤ g' ∧ g' < g + 1 := by
  obtain ⟨-, hback, -⟩ := List.pairwise_append.mp hsorted
  obtain ⟨-, hafter, hbefore⟩ := List.pairwise_append.mp hback
  have hge : ∀ x ∈ before ++ g :: after, g₀ ≤ x := hat.back
  constructor
  · intro hmem
    rcases List.mem_append.mp hmem with hmem | hmem
    · have hlt := hbefore g' hmem g List.mem_cons_self
      exact ⟨hge g' (List.mem_append_left _ hmem), by omega⟩
    · obtain rfl : g' = g := List.mem_singleton.mp hmem
      exact ⟨hge g' (List.mem_append_right _ List.mem_cons_self), by omega⟩
  · rintro ⟨hle, hlt⟩
    rcases List.mem_append.mp hg' with hmem | hmem
    · have := hat.front g' hmem
      omega
    · rcases List.mem_append.mp hmem with hmem | hmem
      · exact List.mem_append_left _ hmem
      · rcases List.mem_cons.mp hmem with rfl | hmem
        · exact List.mem_append_right _ (List.mem_singleton.mpr rfl)
        · have := List.rel_of_pairwise_cons hafter hmem
          omega

/-- A search that stops in the queue has found the first group. -/
theorem Tracks.found_in_queue (hvisit : FindsInRecord visit) {front before after : List ℕ}
    {g₀ g i : ℕ} {a : α} {caTraceQ : ℕ → CATraceQItem}
    (h : Tracks b k item (front ++ (before ++ g :: after)) W s)
    (hat : At g₀ front (before ++ g :: after) s i)
    (hmiss : ∀ g' ∈ before, (visit (item g')).2 = none) (hfound : (visit (item g)).2 = some a)
    (hqueued : Queued (CATrace.visited visit (before ++ [g]) item) (front ++ (before ++ g :: after))
      { s with caTraceQ := caTraceQ }) :
    Found visit b k item g₀ s a (shift 512 s.traceQOut (front ++ before).length) g (front ++ before)
      after W { s with caTraceQ := caTraceQ } := by
  have hpassed : ∀ g' ∈ front ++ (before ++ g :: after), g' ∈ before ++ [g] ↔ g₀ ≤ g' ∧
    g' < g + 1 := fun g' hg' => hat.mem_passed h.sorted hg'
  have hgroups : g ∈ front ++ (before ++ g :: after) := by simp
  have hread := h.read g hgroups
  have hwords := h.words_le
  refine ⟨nextPosition_eq_some_iff.mpr ⟨?_, by omega, by rw [hfound]; rfl, ?_⟩, hfound, ?_, rfl,
    rfl⟩
  · exact ((hpassed g hgroups).mp (by simp)).1
  · intro q hq hqg
    refine h.not_found hvisit (by omega) fun hmem => hmiss q ?_
    rcases List.mem_append.mp ((hpassed q hmem).mpr ⟨hq, by omega⟩) with hbefore | heq
    · exact hbefore
    · have := List.mem_singleton.mp heq
      omega
  · rw [List.append_assoc]
    exact h.visited hvisit (by omega) (fun g' hg' => hpassed g' hg') (fun g' hg' => by
      rcases List.mem_append.mp hg' with hmem | hmem
      · simp [hmem]
      · simp [List.mem_singleton.mp hmem]) hqueued

/-- A visit of the groups before `m` and then of those from `m` on. -/
theorem visitedIn_trans {g₀ m e : ℕ} (hm : g₀ ≤ m) (he : m ≤ e) :
    visitedIn visit m e (visitedIn visit g₀ m item) = visitedIn visit g₀ e item := by
  funext g
  rw [visitedIn, visitedIn, visitedIn]
  split_ifs <;> first | rfl | omega

/-- A search that goes on behind the words that have been read. -/
theorem Found.of_read {g₀ g i : ℕ} {a : α} {front back : List ℕ} {s' s'' : CATrace}
    (hg₀ : g₀ ≤ 5 * W) (hW : W ≤ 32 * k)
    (hnone : nextPosition (fun g => (visit (item g)).2.isSome) g₀ (5 * W) = none)
    (hout : s'.traceQOut = s.traceQOut)
    {W' : ℕ} (h : Found visit b k (visitedIn visit g₀ (5 * W) item) (5 * W) s' a i g front
      back W' s'') :
    Found visit b k item g₀ s a i g front back W' s'' := by
  have hge := (nextPosition_eq_some_iff.mp h.next).1
  have hitem : visitedIn visit g₀ (5 * W) item g = item g := if_neg (by omega)
  refine ⟨?_, hitem ▸ h.found, ?_, h.index, h.out.trans hout⟩
  · rw [nextFound, nextPosition_append (m := 5 * W) hg₀ (by omega), hnone, Option.none_or, ← h.next]
    refine nextPosition_congr fun q hq _ => ?_
    rw [visitedIn, if_neg (by omega)]
  · rw [← visitedIn_trans hg₀ (show 5 * W ≤ g + 1 by omega)]
    exact h.tracks

/-- **A search finds the first group** of the trace from its start on, or fails. -/
theorem searchTrace_found (hvisit : FindsInRecord visit) {front back : List ℕ} {g₀ i : ℕ}
    (h : Tracks b k item (front ++ back) W s)
    (hat : At g₀ front back s i) (hg₀ : g₀ ≤ 5 * W) (fuel : ℕ) :
    (∃ e s', searchTrace noPack visit fuel i s = .error e s') ∨
      ∃ a i' g front' back' W' s', searchTrace noPack visit fuel i s = .ok (a, i') s' ∧
        Found visit b k item g₀ s a i' g front' back' W' s' := by
  induction fuel generalizing item front back g₀ i W s with
  | zero => exact .inl ⟨.err, s, rfl⟩
  | succ fuel ih =>
    have hnodup : (front ++ back).Nodup := h.sorted.imp fun hlt => Nat.ne_of_lt hlt
    have hle := h.words_le
    have hlength : back.length ≤ s.traceQSize := by
      have hfits := h.queued.fits
      rw [List.length_append] at hfits
      rw [h.queued.size]
      omega
    have hsearched := searchQ_searched visit h.queued hnodup hlength
    rw [← hat.index] at hsearched
    rw [searchTrace]
    generalize hr : searchQ visit s.traceQSize i s = r at hsearched
    simp only [hr]
    cases hsearched with
    | missed caTraceQ hmiss hqueued =>
      have hback : ∀ g ∈ front ++ back, g ∈ back ↔ g₀ ≤ g ∧ g < 5 * W := fun g hg =>
        ⟨fun hmem => ⟨hat.back g hmem, h.read g hg⟩, fun hin => (List.mem_append.mp hg).resolve_left
            fun hmem => by
          have := hat.front g hmem
          omega⟩
      have hnone : nextPosition (fun g => (visit (item g)).2.isSome) g₀ (5 * W) = none :=
          nextPosition_eq_none_iff.mpr fun q hq hqW =>
        h.not_found hvisit hqW fun hmem => hmiss q ((hback q hmem).mpr ⟨hq, hqW⟩)
      have hvisited :=
        h.visited hvisit (Nat.le_refl _) hback (fun g hg => List.mem_append_right _ hg) hqueued
      rcases parseNextVectorRecord_leaves hvisited with ⟨e, s', heq⟩ | ⟨w, s', hw, heq, hout,
        hlt, htracks⟩
      · exact .inl ⟨e, { s' with status := e }, bind_error (by rw [checked, heq])⟩
      · dsimp only
        rw [bind_ok (by rw [checked, heq])]
        have hat' : At (5 * W) (front ++ back) (positions (nonEmpty b) (5 * W) (5 * (w + 1))) s'
            (shift 512 s.traceQOut (front ++ back).length) :=
          ⟨by rw [hout], fun g hg => h.read g hg, fun g hg => (mem_positions.mp hg).1⟩
        rcases ih htracks hat' (by omega) with hfail | ⟨a, i', g, front', back', W', s'',
          hrun, hfound⟩
        · exact .inl hfail
        · exact .inr ⟨a, i', g, front', back', W', s'', hrun, hfound.of_read (s := s) hg₀ hle hnone
            hout⟩
    | @found before g after a caTraceQ hback hmiss hfound hqueued =>
      subst hback
      exact .inr ⟨a, _, g, front ++ before, after, W, { s with caTraceQ := caTraceQ }, rfl,
        h.found_in_queue hvisit hat hmiss hfound hqueued⟩

end

end TraceDecoder.CATrace
