import TraceDecoder.OneCore

/-!
# A core in lockstep with itself

The work on a message is a sequence of updates that keep to the message's core. So a relation that
these updates keep is kept by the work on the message, whatever there is besides the core.
-/

namespace TraceDecoder

open EStateM TraceM

variable {E : Env} {c : ℕ}

/-- Traces at work on the same message of a core, with what is besides the core in the second. -/
structure Localized (c : ℕ) (R : Trace E → Trace E → Prop) : Prop where
  worksOn : ∀ {t t'}, R t t' → t.WorksOn c
  beside : ∀ {t t'}, R t t' → ∃ o, t' = t.beside c o
  closed : ∀ {v t t'}, Local c v → R t t' → R (v t) (v t')

theorem similar_beside {t : Trace E} (h : t.WorksOn c) (o : Elsewhere E) :
    Similar t.toDecoder (t.beside c o).toDecoder where
  nmCore := rfl
  body := rfl
  haveTimestamp := rfl
  timestamp := rfl
  here := congrArg CoreState.decoding (beside_here h o).symm
  pIndex := by
    change (t.core t.nm.core).currentProcessIndex =
      (Function.update o.core c (t.core c) t.nm.core).currentProcessIndex
    rw [h.nmCore, Function.update_self]
  eventConverter := rfl
  perfConverter p := by
    change t.perfConverter p t.nm.core = Function.update (o.perfConverter p) c (t.perfConverter p c)
      t.nm.core
    rw [h.nmCore, Function.update_self]

theorem Matches.local {R : Trace E → Trace E → Prop} (h : Localized c R) {v : Trace E → Trace E}
    (hv : Local c v) :
    Matches R R (modify v : TraceM E Unit) (modify v) :=
  Matches.modify fun _ _ hst => h.closed hv hst

section
variable {R : Trace E → Trace E → Prop} (hE : ¬ E.Converts) (h : Localized c R)
include hE h

theorem Localized.shares : Shares R where
  similar hst := by
    obtain ⟨o, rfl⟩ := h.beside hst
    exact similar_beside (h.worksOn hst) o
  status hst := by
    obtain ⟨o, rfl⟩ := h.beside hst
    rfl
  traceType hst := by
    obtain ⟨o, rfl⟩ := h.beside hst
    rfl
  analytics hst := by
    obtain ⟨o, rfl⟩ := h.beside hst
    rfl
  caTrace hst := by
    obtain ⟨o, rfl⟩ := h.beside hst
    rfl
  caSyncAddr hst := by
    obtain ⟨o, rfl⟩ := h.beside hst
    rfl
  syncCount hst := by
    obtain ⟨o, rfl⟩ := h.beside hst
    rfl
  readNew hst := by
    obtain ⟨o, rfl⟩ := h.beside hst
    rfl
  closed hu hst := h.closed (local_of_stateUpdate hE hu) hst
  switches {ty t t'} hty hst := by
    have htype := (h.worksOn hst).traceType
    obtain rfl : ty = .htm := by
      rcases hty with hbtm | hsame
      · rw [htype] at hbtm
        cases hbtm
      · exact hsame.trans htype
    refine h.closed (v := fun t => t.on ({ · with traceType := .htm }))
      ⟨fun hw => ⟨hw.currentCore, hw.nmCore, hw.noError, hw.caTrace, rfl⟩, fun _ =>
        ⟨rfl, rfl, fun _ _ => rfl, fun _ _ => rfl, fun _ _ _ => rfl, rfl, rfl, rfl, rfl⟩, fun o _ =>
          ⟨o, rfl, rfl⟩⟩ hst
  ca := .inl fun hst => (h.worksOn hst).caTrace

theorem Localized.speaks (want : Want) : Speaks want want R where
  toShares := h.shares hE
  resetsAll := .inl fun hst => (h.worksOn hst).noError
  message hm := Matches.onlyIf fun _ => Matches.local h (local_report hm)

/-- **The work on a message** keeps to the message's core. -/
theorem Localized.lockstep (want : Want) (locals : Locals) :
    Lockstep want want locals locals R where
  toSpeaks := h.speaks hE want
  sourceHere := by
    have hrun : Matches R R (onlyIf want.src (modify reportSourceHere) : TraceM E Unit)
        (onlyIf want.src (modify reportSourceHere)) :=
      Matches.onlyIf fun _ => Matches.local h local_reportSourceHere
    exact Coupled.weaken hrun (fun _ _ hst => hst.rel) (fun _ _ _ _ hst => hst.2) fun _ _ hst => hst
  sourceOnce := by
    have honce : Local (E := E) c fun t => if t.srcSet then t else reportSourceHere t :=
      Local.ite (b := fun t => t.srcSet) (fun _ _ => rfl) Local.same local_reportSourceHere
    exact Matches.onlyIf fun _ => Matches.local h honce
  event reason := Matches.local h (local_reportEvent want (some reason))
  ict body _ := by
    have hmessage (a : ADDRESS) : Matches R R (reportMessage want (messageAt a))
        (reportMessage want (messageAt a)) :=
      (h.speaks hE want).message (.at a)
    intro t t' hst
    have hhere : t'.here = t.here := by
      obtain ⟨o, rfl⟩ := h.beside hst
      exact beside_here (h.worksOn hst) o
    unfold reportICT
    rw [bind_run, bind_run, eventAddress_run, eventAddress_run, hhere]
    split_ifs
    · exact hmessage _ t t' hst
    · exact hmessage _ t t' hst
    · exact hmessage _ _ _ (h.closed (local_reportEvent want body.getCKSRC) hst)
    · exact hmessage _ _ _ (h.closed (local_reportEvent want body.getCKSRC) hst)
  shows a _ hst := h.closed (local_disassemble a) hst
  step s ca := by
    have hstep : Matches R R (reportStep want locals s ca) (reportStep want locals s ca) :=
      (Matches.onlyIf fun _ => Matches.local h (local_reportInstruction locals s ca)).bind fun _ =>
        Matches.onlyIf fun _ => Matches.local h local_reportSource
    exact Coupled.weaken hstep (fun _ _ hst => hst.rel) (fun _ _ _ _ hst => hst.2)
      fun _ _ hst => hst

end

end TraceDecoder
