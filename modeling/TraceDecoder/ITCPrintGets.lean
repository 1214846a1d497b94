import TraceDecoder.ITCPrintTaking

/-!
# The calls that get and flush messages

On lists of at most two records these calls return, and keep the lists linked and the accounts as
they are.
-/

namespace TraceDecoder

namespace ITCPrint

open Function TsLists

def takes (p : ITCPrint) : Op → Option ℕ
  | .print .. => none
  | .getMsg core haveDst dstLen | .flushMsg core haveDst dstLen =>
    if core < p.numCores ∧ haveDst = true ∧ 0 < dstLen ∧ 0 < (p.queue core).numMsgs then some core
      else none
  | .getStr core | .flushStr core =>
    if core < p.numCores ∧ 0 < (p.queue core).numMsgs then some core else none

def Op.core : Op → ℕ
  | .print core .. | .getMsg core .. | .getStr core | .flushMsg core .. | .flushStr core => core

variable {p p' : ITCPrint} {place : ℕ → Place} {L : ℕ → List ℕ} {F : List ℕ} {core : ℕ}
    {tstamp : TIMESTAMP}
variable {sprintf : String → List PrintfArg → List Byte} {op : Op}

theorem takes_msg_iff {haveDst : Bool} {dstLen : ℤ} {c : ℕ} :
    p.takes (.getMsg core haveDst dstLen) = some c ↔
    c = core ∧ core < p.numCores ∧ haveDst = true ∧ 0 < dstLen ∧ 0 < (p.queue core).numMsgs := by
  dsimp only [takes]
  split_ifs with h
  · exact ⟨fun hc => ⟨(Option.some.inj hc).symm, h⟩, fun hc => congrArg some hc.1.symm⟩
  · exact iff_of_false id fun hc => h hc.2

theorem takes_str_iff {c : ℕ} :
    p.takes (.getStr core) = some c ↔ c = core ∧ core < p.numCores ∧
      0 < (p.queue core).numMsgs := by
  dsimp only [takes]
  split_ifs with h
  · exact ⟨fun hc => ⟨(Option.some.inj hc).symm, h⟩, fun hc => congrArg some hc.1.symm⟩
  · exact iff_of_false id fun hc => h hc.2

/-! ### Taking -/

def Settled (p : ITCPrint) (L : ℕ → List ℕ) (op : Op) (o : Option (Option Printed × ITCPrint)) :
    Prop :=
  ∃ r, o = some r ∧ Settles p r.2 L op.core ∧ ∀ core, p.takes op = some core → p.excess L core = 0 →
    r.1.isSome

theorem terminated_ne_zero (hmsgs : 0 < (p.queue core).numMsgs) (hexcess : p.excess L core = 0) :
    p.terminated (L core) ≠ 0 := by
  unfold excess at hexcess
  omega

theorem Ledger.null (h : p.Ledger place L F)
    (hsome : 0 < (p.queue core).numMsgs ∨ (p.queue core).pbo ≠ (p.queue core).pbi) :
    ∃ j < p.buffSize, (p.queue core).pbuff j = 0x00 := by
  refine (h.readable core).resolve_right ?_
  rintro ⟨hempty, hnone⟩
  rcases hsome with hsome | hsome
  · omega
  · exact hsome hempty

theorem InRings.readStr (hin : InRings p) (hnull : ∃ j < p.buffSize, (p.queue core).pbuff j =
      0x00) :
    ∃ r, (p.queue core).readStr p.buffSize p.buffSize (p.queue core).pbo = some r := by
  obtain ⟨j, hj, hnull⟩ := hnull
  exact PrintQueue.readStr_isSome _ (hin core).pbo hj hnull
    (RingIndex.distance_lt hj (hin core).pbo)

/-- Taking a terminated message, whichever way it is read. -/
theorem Ledger.get (h : p.Ledger place L F) (hmsgs : 0 < (p.queue core).numMsgs)
    (hshort : (L core).length ≤ 2) :
    ∃ o l, p.lists.consumeTerminatedTsList (p.queue core).numMsgs core = some (o, l) ∧
      (o = none → Settles p { p with lists := l } L core ∧ p.excess L core ≠ 0) ∧
      ∀ tsl, o = some tsl → ∀ pbo, Settles p
        { p.setQueue core { p.queue core with numMsgs := (p.queue core).numMsgs - 1, pbo := pbo } with lists := l } L core := by
  obtain ⟨o, l, place', L', F', hconsume, hconsumed, hnone⟩ :=
    h.listed.consumeTerminatedTsList hshort hmsgs
  refine ⟨o, l, hconsume, fun ho => ?_, fun tsl ho pbo => ?_⟩
  · subst ho
    exact ⟨Consumed.settles_lists h hconsumed, fun hexcess => terminated_ne_zero hmsgs hexcess
      (hnone rfl)⟩
  · subst ho
    exact Consumed.settles h hconsumed (h.null (.inl hmsgs)) rfl pbo

theorem Ledger.getITCPrintMsg (h : p.Ledger place L F) {haveDst : Bool} {dstLen : ℤ}
    (hshort : p.takes (.getMsg core haveDst dstLen) = some core → (L core).length ≤ 2) :
    p.Settled L (.getMsg core haveDst dstLen) (p.getITCPrintMsg core haveDst dstLen) := by
  rw [ITCPrint.getITCPrintMsg]
  dsimp only
  split_ifs with hguard hmsgs
  · refine ⟨_, rfl, h.settles_refl core, fun c hc => ?_⟩
    obtain ⟨-, hcore, hdst, hlen, -⟩ := takes_msg_iff.mp hc
    exact absurd hguard (by simp [hdst, hcore, hlen])
  · simp only [not_or, Nat.not_le, Bool.not_eq_false, Int.not_le] at hguard
    obtain ⟨o, l, hconsume, hnone, hsome⟩ :=
      h.get hmsgs (hshort (takes_msg_iff.mpr ⟨rfl, hguard.1, hguard.2.1, hguard.2.2, hmsgs⟩))
    rw [hconsume, Option.map_some]
    cases o with
    | none =>
      obtain ⟨hsettles, hexcess⟩ := hnone rfl
      exact ⟨_, rfl, hsettles, fun c hc hzero => absurd ((takes_msg_iff.mp hc).1 ▸ hzero) hexcess⟩
    | some tsl => exact ⟨_, rfl, hsome tsl rfl _, fun _ _ _ => rfl⟩
  · refine ⟨_, rfl, h.settles_refl core, fun c hc => ?_⟩
    obtain ⟨-, -, -, -, hc⟩ := takes_msg_iff.mp hc
    exact absurd hc hmsgs

theorem Ledger.getITCPrintStr (h : p.Ledger place L F) (hin : InRings p)
    (hshort : p.takes (.getStr core) = some core → (L core).length ≤ 2) :
    p.Settled L (.getStr core) (p.getITCPrintStr core) := by
  rw [ITCPrint.getITCPrintStr]
  dsimp only
  split_ifs with hguard hmsgs
  · refine ⟨_, rfl, h.settles_refl core, fun c hc => ?_⟩
    obtain ⟨-, hcore, -⟩ := takes_str_iff.mp hc
    exact absurd hguard (Nat.not_le.mpr hcore)
  · obtain ⟨o, l, hconsume, hnone, hsome⟩ :=
      h.get hmsgs (hshort (takes_str_iff.mpr ⟨rfl, Nat.not_le.mp hguard, hmsgs⟩))
    rw [hconsume, Option.bind_some]
    cases o with
    | none =>
      obtain ⟨hsettles, hexcess⟩ := hnone rfl
      exact ⟨_, rfl, hsettles, fun c hc hzero => absurd ((takes_str_iff.mp hc).1 ▸ hzero) hexcess⟩
    | some tsl =>
      obtain ⟨read, hread⟩ := hin.readStr (h.null (.inl hmsgs))
      dsimp only
      rw [hread, Option.map_some]
      exact ⟨_, rfl, hsome tsl rfl _, fun _ _ _ => rfl⟩
  · refine ⟨_, rfl, h.settles_refl core, fun c hc => ?_⟩
    obtain ⟨-, -, hc⟩ := takes_str_iff.mp hc
    exact absurd hc hmsgs

/-- Taking the message in progress, whichever way it is read. -/
theorem Ledger.flush (h : p.Ledger place L F) (hmsgs : ¬ 0 < (p.queue core).numMsgs)
    (hunread : ¬ (p.queue core).pbo = (p.queue core).pbi) :
    ∃ o l, p.lists.consumeOldestTsList (p.queue core).numMsgs core = some (o, l) ∧
      (o = none → Settles p { p with lists := l } L core) ∧
      ∀ tsl, o = some tsl → (l.record tsl).terminated = false ∧ ∀ pbo, Settles p
        { p.setQueue core { p.queue core with pbo := pbo } with lists := l } L core := by
  have hcovered := h.covered core
  unfold excess at hcovered
  obtain ⟨o, l, place', L', F', hconsume, hconsumed, hterminated⟩ :=
    h.listed.consumeOldestTsList (show p.terminated (L core) = 0 by omega) (Int.not_lt.mp hmsgs)
  refine ⟨o, l, hconsume, fun _ => Consumed.settles_lists h hconsumed, fun tsl ho =>
    ⟨hterminated tsl ho, fun pbo => ?_⟩⟩
  exact Consumed.settles h hconsumed (h.null (.inr hunread)) (Int.sub_zero _).symm pbo

theorem Ledger.flushITCPrintMsg (h : p.Ledger place L F) {haveDst : Bool} {dstLen : ℤ}
    (hshort : p.takes (.flushMsg core haveDst dstLen) = some core → (L core).length ≤ 2) :
    p.Settled L (.flushMsg core haveDst dstLen) (p.flushITCPrintMsg core haveDst dstLen) := by
  have hnot : ¬ 0 < (p.queue core).numMsgs → ∀ c, p.takes (.flushMsg core haveDst dstLen) ≠
      some c :=
    fun hmsgs c hc => hmsgs (takes_msg_iff.mp hc).2.2.2.2
  rw [ITCPrint.flushITCPrintMsg]
  dsimp only
  split_ifs with hguard hmsgs hempty
  · refine ⟨_, rfl, h.settles_refl core, fun c hc => ?_⟩
    obtain ⟨-, hcore, hdst, hlen, -⟩ := takes_msg_iff.mp hc
    exact absurd hguard (by simp [hdst, hcore, hlen])
  · exact h.getITCPrintMsg hshort
  · exact ⟨_, rfl, h.settles_refl core, fun c hc => absurd hc (hnot hmsgs c)⟩
  · obtain ⟨o, l, hconsume, hnone, hsome⟩ := h.flush hmsgs hempty
    rw [hconsume, Option.map_some]
    cases o with
    | none => exact ⟨_, rfl, hnone rfl, fun c hc => absurd hc (hnot hmsgs c)⟩
    | some tsl =>
      obtain ⟨hterminated, hsettles⟩ := hsome tsl rfl
      dsimp only
      rw [hterminated]
      exact ⟨_, rfl, hsettles _, fun c hc => absurd hc (hnot hmsgs c)⟩

theorem Ledger.flushITCPrintStr (h : p.Ledger place L F) (hin : InRings p)
    (hshort : p.takes (.flushStr core) = some core → (L core).length ≤ 2) :
    p.Settled L (.flushStr core) (p.flushITCPrintStr core) := by
  have hnot : ¬ 0 < (p.queue core).numMsgs → ∀ c, p.takes (.flushStr core) ≠ some c :=
    fun hmsgs c hc => hmsgs (takes_str_iff.mp hc).2.2
  rw [ITCPrint.flushITCPrintStr]
  dsimp only
  split_ifs with hguard hmsgs hempty
  · refine ⟨_, rfl, h.settles_refl core, fun c hc => ?_⟩
    obtain ⟨-, hcore, -⟩ := takes_str_iff.mp hc
    exact absurd hguard (Nat.not_le.mpr hcore)
  · exact h.getITCPrintStr hin hshort
  · exact ⟨_, rfl, h.settles_refl core, fun c hc => absurd hc (hnot hmsgs c)⟩
  · obtain ⟨o, l, hconsume, hnone, hsome⟩ := h.flush hmsgs hempty
    rw [hconsume, Option.bind_some]
    cases o with
    | none => exact ⟨_, rfl, hnone rfl, fun c hc => absurd hc (hnot hmsgs c)⟩
    | some tsl =>
      obtain ⟨hterminated, hsettles⟩ := hsome tsl rfl
      obtain ⟨read, hread⟩ := hin.readStr (h.null (.inr hempty))
      dsimp only
      rw [hterminated, hread]
      exact ⟨_, rfl, hsettles _, fun c hc => absurd hc (hnot hmsgs c)⟩

end ITCPrint

end TraceDecoder
