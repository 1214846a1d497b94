import TraceDecoder.ITCPrintLedger

/-!
# Taking messages

A call that gets or flushes a message takes the oldest record of its core. On a list of at most two
records this keeps the lists linked, and as many messages are taken off the number as records off
the list.
-/

namespace TraceDecoder

open RingIndex

namespace PrintQueue

def Readable (buffSize : ℕ) (q : PrintQueue) : Prop :=
  (∃ j < buffSize, q.pbuff j = 0x00) ∨ q.pbo = q.pbi ∧ q.numMsgs ≤ 0

theorem readStr_isSome (q : PrintQueue) {buffSize pbo j n : ℕ} (hpbo : pbo < buffSize)
    (hj : j < buffSize)
    (hnull : q.pbuff j = 0x00) (hn : distance buffSize pbo j < n) :
    ∃ r, q.readStr buffSize n pbo = some r := by
  induction n generalizing pbo with
  | zero => exact absurd hn (Nat.not_lt_zero _)
  | succ n ih =>
    rw [readStr]
    by_cases hend : q.pbuff pbo = 0x00
    · rw [if_pos hend]
      exact ⟨_, rfl⟩
    · have hne : j ≠ pbo := by
        rintro rfl
        exact hend hnull
      have hcloser : distance buffSize (advance buffSize pbo) j < n := by
        unfold distance at hn ⊢
        unfold advance
        split_ifs at hn ⊢ <;> omega
      obtain ⟨r, hr⟩ := ih (advance_lt hpbo) hcloser
      rw [if_neg hend, hr]
      exact ⟨_, rfl⟩

end PrintQueue

namespace ITCPrint

open Function TsLists

variable {p p' : ITCPrint} {place place' : ℕ → Place} {L L' : ℕ → List ℕ} {F F' : List ℕ} {core : ℕ}
    {l : TsLists}

def excess (p : ITCPrint) (L : ℕ → List ℕ) (c : ℕ) : ℤ := (p.queue c).numMsgs - p.terminated (L c)

structure Ledger (p : ITCPrint) (place : ℕ → Place) (L : ℕ → List ℕ) (F : List ℕ) : Prop where
  listed : p.Listed place L F
  covered : ∀ c, 0 ≤ p.excess L c
  readable : ∀ c, (p.queue c).Readable p.buffSize

theorem Leaves.terminated (h : Leaves p p' L L' core) {c : ℕ} (hc : c ≠ core) :
    p'.terminated (L' c) = p.terminated (L c) := by
  unfold ITCPrint.terminated
  rw [h.lists c hc]
  exact List.countP_congr fun r hr => by rw [h.record c hc r hr]

theorem Leaves.refl (p : ITCPrint) (L : ℕ → List ℕ) (core : ℕ) : Leaves p p L L core :=
  ⟨fun _ _ => rfl, fun _ _ => rfl, fun _ _ _ _ => rfl⟩

/-! ### Records that are taken -/

/-- The lists after `k` terminated records of `core` have been taken. -/
structure Consumed (p : ITCPrint) (L : ℕ → List ℕ) (core : ℕ) (l : TsLists) (place' : ℕ → Place)
    (L' : ℕ → List ℕ) (F' : List ℕ) (k : ℕ) : Prop where
  listed : ∀ p' : ITCPrint, p'.lists = l → p'.Listed place' L' F'
  leaves : ∀ p' : ITCPrint, p'.lists = l → Leaves p p' L L' core
  terminated : ∀ p' : ITCPrint, p'.lists = l → p'.terminated (L' core) + k = p.terminated (L core)

theorem Listed.consumed_none (h : p.Listed place L F) (core : ℕ) :
    p.Consumed L core p.lists place L F 0 := by
  refine ⟨fun p' hp' => ⟨?_, ?_⟩, fun p' hp' => ⟨fun _ _ => rfl, ?_, ?_⟩, fun p' hp' => ?_⟩
  · rw [hp']
    exact h.owned
  · rw [hp']
    exact h.older
  · rw [hp']
    exact fun _ _ => rfl
  · rw [hp']
    exact fun _ _ _ _ => rfl
  · unfold ITCPrint.terminated
    rw [hp']
    rfl

theorem unlink_tsList (l : TsLists) {core c : ℕ} (h tsl : ℕ) (hc : c ≠ core) :
    (l.unlink core h tsl).tsList c = l.tsList c := by
  unfold unlink
  dsimp only
  split_ifs
  · exact if_neg hc
  · rfl
  · rfl

theorem Listed.consumed (h : p.Listed place L F) {xs : List ℕ} {a b : ℕ} (hL : L core = xs ++ [b])
    (howned : (p.lists.unlink core a b).Owned place' (update L core xs) F')
    (hmessage : ∀ r, SameMessage (p.lists.record r) ((p.lists.unlink core a b).record r))
    (hother : ∀ r ∉ L core, (p.lists.unlink core a b).record r = p.lists.record r) :
    p.Consumed L core (p.lists.unlink core a b) place' (update L core xs) F'
      (if (p.lists.record b).terminated then 1 else 0) := by
  have htail : ∀ r ∈ xs.tail, r ∈ (L core).tail := by
    rw [hL]
    cases xs with
    | nil => exact List.forall_mem_nil _
    | cons x xs => exact fun r hr => List.mem_append_left _ hr
  refine ⟨fun p' hp' => ⟨hp' ▸ howned, fun c r hr => ?_⟩, fun p' hp' =>
    ⟨fun c hc => update_of_ne hc .., fun c hc => ?_, fun c hc r hr => ?_⟩, fun p' hp' => ?_⟩
  · rw [hp', (hmessage r).terminated]
    by_cases hc : c = core
    · subst hc
      rw [update_self] at hr
      exact h.older c r (htail r hr)
    · rw [update_of_ne hc] at hr
      exact h.older c r hr
  · rw [hp', unlink_tsList _ _ _ hc]
  · rw [hp', hother r (h.owned.not_mem hr (Ne.symm hc))]
  · have hcount : xs.countP (fun r => (p'.lists.record r).terminated) = xs.countP
        fun r => (p.lists.record r).terminated :=
      List.countP_congr fun r _ => by rw [hp', (hmessage r).terminated]
    unfold ITCPrint.terminated
    rw [update_self, hL, List.countP_append, List.countP_singleton, hcount]

/-- What `consumeTerminatedTsList` takes off a list of at most two records. -/
theorem Listed.consumeTerminatedTsList (h : p.Listed place L F) (hshort : (L core).length ≤ 2)
    {n : ℤ} (hn : 0 < n) :
    ∃ o l place' L' F', p.lists.consumeTerminatedTsList n core = some (o, l) ∧
      p.Consumed L core l place' L' F' (if o.isSome then 1 else 0) ∧
        (o = none → p.terminated (L core) = 0) := by
  have hring := h.owned.ring core
  have holder := h.older core
  unfold TsLists.consumeTerminatedTsList
  rw [if_pos hn]
  match hL : L core with
  | [] =>
    rw [hL] at hring
    rw [Links.ring_nil_iff.mp hring]
    exact ⟨none, p.lists, place, L, F, rfl, h.consumed_none core, fun _ => rfl⟩
  | [a] =>
    rw [hL] at hring
    obtain ⟨hhead, -, hprev⟩ := Links.ring_cons_iff.mp hring
    have hprev : (p.lists.record a).prev = some a := hprev
    rw [hhead]
    dsimp only
    rw [hprev, Option.map_some]
    cases ht : (p.lists.record a).terminated with
    | true =>
      obtain ⟨howned, hmessage, hother⟩ := h.owned.unlink_one hL
      have hconsumed := h.consumed (show L core = [] ++ [a] from hL) howned hmessage hother
      rw [ht] at hconsumed
      exact ⟨some a, _, _, _, _, rfl, hconsumed, fun ho => absurd ho (Option.some_ne_none a)⟩
    | false =>
      refine ⟨none, p.lists, place, L, F, rfl, h.consumed_none core, fun _ => ?_⟩
      unfold ITCPrint.terminated
      rw [List.countP_singleton, ht]
      rfl
  | [a, b] =>
    rw [hL] at hring holder
    obtain ⟨hhead, -, -, hprev⟩ := Links.ring_cons_iff.mp hring
    have hprev : (p.lists.record a).prev = some b := hprev
    have ht : (p.lists.record b).terminated = true := holder b List.mem_cons_self
    rw [hhead]
    dsimp only
    rw [hprev, Option.map_some, if_pos ht]
    obtain ⟨howned, hmessage, hother⟩ := h.owned.unlink_two hL
    have hconsumed := h.consumed (show L core = [a] ++ [b] from hL) howned hmessage hother
    rw [ht] at hconsumed
    exact ⟨some b, _, _, _, _, rfl, hconsumed, fun ho => absurd ho (Option.some_ne_none b)⟩
  | a :: b :: c :: xs =>
    rw [hL] at hshort
    simp only [List.length_cons] at hshort
    omega

/-- What `consumeOldestTsList` takes when there is no terminated record. -/
theorem Listed.consumeOldestTsList (h : p.Listed place L F) (hnone : p.terminated (L core) = 0)
    {n : ℤ} (hn : n ≤ 0) :
    ∃ o l place' L' F', p.lists.consumeOldestTsList n core = some (o, l) ∧
      p.Consumed L core l place' L' F' 0 ∧
      ∀ tsl, o = some tsl → (l.record tsl).terminated = false := by
  have hring := h.owned.ring core
  have hlength := h.terminated_eq core
  have hfirst : p.lists.consumeTerminatedTsList n core = some (none, p.lists) := if_neg (by omega)
  unfold TsLists.consumeOldestTsList
  rw [hfirst, Option.map_some]
  match hL : L core with
  | [] =>
    rw [hL] at hring
    have hhead := Links.ring_nil_iff.mp hring
    rw [hhead]
    exact ⟨none, p.lists, place, L, F, rfl, h.consumed_none core, fun _ ho => absurd ho.symm
      (Option.some_ne_none _)⟩
  | [a] =>
    rw [hL] at hring
    have hhead := (Links.ring_cons_iff.mp hring).1
    rw [hhead]
    have ht : (p.lists.record a).terminated = false := by
      rw [hL] at hnone
      simpa [ITCPrint.terminated] using hnone
    obtain ⟨howned, hmessage, hother⟩ := h.owned.unlink_one hL
    have hconsumed := h.consumed (show L core = [] ++ [a] from hL) howned hmessage hother
    rw [ht] at hconsumed
    refine ⟨some a, _, _, _, _, rfl, hconsumed, fun tsl ho => ?_⟩
    cases ho
    rw [(hmessage a).terminated, ht]
  | a :: b :: xs =>
    rw [hL] at hnone hlength
    simp only [List.length_cons] at hlength
    split_ifs at hlength <;> omega

/-! ### Steps -/

/-- A step on `core` that leaves the accounts as they are. -/
def Settles (p p' : ITCPrint) (L : ℕ → List ℕ) (core : ℕ) : Prop :=
  ∃ place' L' F', p'.Ledger place' L' F' ∧ Leaves p p' L L' core ∧ ∀ c, p'.excess L' c =
    p.excess L c

theorem Ledger.settles_refl (h : p.Ledger place L F) (core : ℕ) : Settles p p L core :=
  ⟨place, L, F, h, .refl p L core, fun _ => rfl⟩

theorem Consumed.settles_lists (hp : p.Ledger place L F) (h : p.Consumed L core l place' L' F' 0) :
    Settles p { p with lists := l } L core := by
  set p' := { p with lists := l }
  have hleaves := h.leaves p' rfl
  have hexcess : ∀ c, p'.excess L' c = p.excess L c := by
    intro c
    have hcount : p'.terminated (L' c) = p.terminated (L c) := by
      by_cases hc : c = core
      · rw [hc]
        exact h.terminated p' rfl
      · exact hleaves.terminated hc
    unfold excess
    rw [hcount]
  exact ⟨place', L', F', ⟨h.listed p' rfl, fun c => hexcess c ▸ hp.covered c, hp.readable⟩, hleaves,
    hexcess⟩

theorem Consumed.settles {k : ℕ} (hp : p.Ledger place L F) (h : p.Consumed L core l place' L' F' k)
    (hnull : ∃ j < p.buffSize, (p.queue core).pbuff j = 0x00) {numMsgs : ℤ}
    (hnumMsgs : numMsgs = (p.queue core).numMsgs - k) (pbo : ℕ) :
    Settles p { p.setQueue core { p.queue core with numMsgs := numMsgs, pbo := pbo } with lists :=
  l } L core := by
  set p' := { p.setQueue core { p.queue core with numMsgs := numMsgs, pbo := pbo } with lists := l }
  have hleaves := h.leaves p' rfl
  have hqueue : p'.queue core = { p.queue core with numMsgs := numMsgs, pbo := pbo } := if_pos rfl
  have hqueue' : ∀ c ≠ core, p'.queue c = p.queue c := fun c hc => if_neg hc
  have hexcess : ∀ c, p'.excess L' c = p.excess L c := by
    intro c
    unfold excess
    by_cases hc : c = core
    · have hcount := h.terminated p' rfl
      rw [hc, hqueue, ← hcount, hnumMsgs]
      dsimp only
      omega
    · rw [hqueue' c hc, hleaves.terminated hc]
  refine ⟨place', L', F', ⟨h.listed p' rfl, fun c => hexcess c ▸ hp.covered c, fun c => ?_⟩,
    hleaves, hexcess⟩
  by_cases hc : c = core
  · rw [hc, hqueue]
    exact .inl hnull
  · rw [hqueue' c hc]
    exact hp.readable c

end ITCPrint

end TraceDecoder
