import TraceDecoder.ProcessTraceMessage

/-!
# Addresses of a message

What the parts of `processTraceMessage` do to the addresses of the core at work: most leave both as
they are.
-/

namespace TraceDecoder

open DecoderM

variable {E : Env}

/-- The decoder is at work on a message of core `c`, with these addresses. -/
structure At (c : ℕ) (faddr pc : ADDRESS) (d : Decoder E) : Prop where
  current : d.currentCore = c
  message : d.nm.core = c
  faddr : (d.core c).lastFaddr = faddr
  pc : (d.core c).currentAddress = pc

/-! ### What changes no address -/

section
variable {c i : ℕ} {faddr pc a : ADDRESS} {d : Decoder E} {pIndex : Option ℕ} {p : ℕ}
    {pid : BitVec 32}

theorem At.modifyCore {g : CoreState → CoreState} (h : At c faddr pc d)
    (hfaddr : ∀ k, (g k).lastFaddr = k.lastFaddr)
    (hpc : ∀ k, (g k).currentAddress = k.currentAddress) :
    At c faddr pc (d.modifyCore i g) := by
  by_cases hi : c = i
  · subst hi
    exact ⟨h.current, h.message, by rw [Decoder.core_modifyCore_self, hfaddr, h.faddr],
      by rw [Decoder.core_modifyCore_self, hpc, h.pc]⟩
  · exact ⟨h.current, h.message, by rw [Decoder.core_modifyCore_of_ne _ _ hi, h.faddr],
      by rw [Decoder.core_modifyCore_of_ne _ _ hi, h.pc]⟩

theorem keeps_updateTime (tstype : TsType) : Keeps (At (E := E) c faddr pc) (updateTime tstype) :=
  Keeps.read.bind fun _ => Keeps.read.bind fun _ => Keeps.onlyIf fun _ =>
    Keeps.modify fun _ h => h.modifyCore (fun _ => rfl) fun _ => rfl

theorem keeps_setPrevMsgWasSync (b : Bool) : Keeps (At (E := E) c faddr pc) (setPrevMsgWasSync b) :=
  Keeps.modify fun _ h => h.modifyCore (fun _ => rfl) fun _ => rfl

theorem keeps_setCurrentPrv (prv : BitVec 8) : Keeps (At (E := E) c faddr pc) (setCurrentPrv prv) :=
  Keeps.modify fun _ h => h.modifyCore (fun _ => rfl) fun _ => rfl

theorem keeps_processPidPriv (v prv : BitVec 8) :
    Keeps (At (E := E) c faddr pc) (processPidPriv pid v prv) :=
  (Keeps.modify fun _ h => h.modifyCore (fun _ => rfl) fun _ => rfl).bind fun _ => Keeps.pure

theorem keeps_emit (call : ConverterCall) : Keeps (At (E := E) c faddr pc) (emit p call) :=
  Keeps.modify fun _ h => ⟨h.current, h.message, h.faddr, h.pc⟩

theorem keeps_enableEventConverter : Keeps (At (E := E) c faddr pc) (enableEventConverter p) := by
  refine (Keeps.modify fun _ h => ⟨h.current, h.message, h.faddr, h.pc⟩).bind fun _ => ?_
  split_ifs
  · exact (Keeps.modify fun _ h => ⟨h.current, h.message, h.faddr, h.pc⟩).bind fun _ => Keeps.pure
  · exact Keeps.pure

theorem keeps_openEventConverter : Keeps (At (E := E) c faddr pc) (openEventConverter p) :=
  Keeps.read.bind fun _ => Keeps.onlyIf fun _ =>
    keeps_enableEventConverter.bind fun _ => Keeps.onlyIf fun _ => Keeps.throw

theorem keeps_convertEvent (call : ConverterCall) :
    Keeps (At (E := E) c faddr pc) (convertEvent pIndex call) := by
  cases pIndex with
  | none => exact Keeps.pure
  | some p => exact Keeps.onlyIf fun _ => keeps_openEventConverter.bind fun _ => keeps_emit call

theorem keeps_nextAddr : Keeps (At (E := E) c faddr pc) (DecoderM.nextAddr a) := by
  refine Keeps.read.bind fun inst => ?_
  split
  · exact Keeps.pure
  · exact (Keeps.modify fun _ h => ⟨h.current, h.message, h.faddr, h.pc⟩).bind fun _ => Keeps.throw

theorem keeps_setCkdata1 : Keeps (At (E := E) c faddr pc) (setCkdata1 a) :=
  Keeps.modify fun _ h => ⟨h.current, h.message, h.faddr, h.pc⟩

theorem keeps_convertCtf (crFlags : CRFlag) (source dest : ADDRESS) :
    Keeps (At (E := E) c faddr pc) (convertCtf p crFlags source dest) := by
  unfold convertCtf
  split_ifs
  · exact keeps_emit _
  · exact keeps_emit _
  · exact Keeps.throw

theorem keeps_switchContext (tag : BitVec 8) :
    Keeps (At (E := E) c faddr pc) (switchContext pIndex pid tag) := by
  unfold switchContext
  split_ifs
  · exact keeps_processPidPriv _ _
  · exact (Keeps.onlyIf fun _ => keeps_setCurrentPrv _).bind fun _ => Keeps.pure

theorem keeps_convertPerf (idTag data : BitVec 32) :
    Keeps (At (E := E) c faddr pc) (convertPerf pIndex idTag data) := by
  cases pIndex with
  | none => exact Keeps.pure
  | some p =>
    refine Keeps.onlyIf fun _ => Keeps.read.bind fun _ => Keeps.bind ?_ fun _ => Keeps.onlyIf
      fun _ => Keeps.throw
    exact Keeps.modify fun _ h => ⟨h.current, h.message, h.faddr, h.pc⟩

theorem keeps_requireNoBranchCounts : Keeps (At (E := E) c faddr pc) requireNoBranchCounts :=
  Keeps.read.bind fun _ => Keeps.onlyIf fun _ => Keeps.throw

theorem keeps_requireNoCounts : Keeps (At (E := E) c faddr pc) requireNoCounts :=
  Keeps.read.bind fun _ => Keeps.onlyIf fun _ => Keeps.throw

/-! ### What changes addresses -/

theorem at_modifyHere {f : CoreState → CoreState} (h : At c faddr pc d) :
    At c (f (d.core c)).lastFaddr (f (d.core c)).currentAddress (d.modifyHere f) := by
  have hcur := h.current
  subst hcur
  exact ⟨rfl, h.message, by rw [Decoder.modifyHere, Decoder.core_modifyCore_self],
    by rw [Decoder.modifyHere, Decoder.core_modifyCore_self]⟩

theorem leaves_setFaddr :
    Leaves (At (E := E) c faddr pc) (setFaddr a) (fun _ => At c a pc) (fun _ _ => True) := by
  refine Leaves.modify fun d h => ?_
  have hset := at_modifyHere (f := ({ · with lastFaddr := a })) h
  rwa [h.pc] at hset

theorem leaves_setPc :
    Leaves (At (E := E) c faddr pc) (setPc a) (fun _ => At c faddr a) (fun _ _ => True) := by
  refine Leaves.modify fun d h => ?_
  have hset := at_modifyHere (f := ({ · with currentAddress := a })) h
  rwa [h.faddr] at hset

theorem leaves_readFaddr :
    Leaves (At (E := E) c faddr pc) DecoderM.faddr (fun a d => a = faddr ∧ At c faddr pc d)
      (fun _ _ => True) := by
  refine Leaves.read fun d h => ⟨?_, h⟩
  rw [Decoder.here, h.current, h.faddr]

theorem leaves_readPc :
    Leaves (At (E := E) c faddr pc) DecoderM.pc (fun a d => a = pc ∧ At c faddr pc d)
      (fun _ _ => True) := by
  refine Leaves.read fun d h => ⟨?_, h⟩
  rw [Decoder.here, h.current, h.pc]

theorem leaves_setPcToFaddr :
    Leaves (At (E := E) c faddr pc) setPcToFaddr (fun _ => At c faddr faddr) (fun _ _ => True) :=
  leaves_readFaddr.bind_eq leaves_setPc

/-- The address after an XOR with `u_addr`; 0 stands for an address that is not known. -/
def xorAddr (faddr u_addr : ADDRESS) : ADDRESS :=
  if faddr ≠ 0 then faddr ^^^ (u_addr <<< 1) else faddr

theorem leaves_xorFaddr (u_addr : ADDRESS) :
    Leaves (At (E := E) c faddr pc) (xorFaddr u_addr) (fun _ => At c (xorAddr faddr u_addr) pc)
      (fun _ _ => True) := by
  refine leaves_readFaddr.bind_eq (Leaves.onlyIf (fun hne => ?_) fun heq d h => ?_)
  · rw [xorAddr, if_pos hne]
    exact leaves_setFaddr
  · rwa [xorAddr, if_neg heq]

theorem leaves_xorPcFaddr (hfaddr : faddr ≠ 0) (source dest : ADDRESS) :
    Leaves (At (E := E) c faddr pc) (xorPcFaddr source dest)
      (fun _ => At c (faddr ^^^ (source <<< 1) ^^^ (dest <<< 1)) (faddr ^^^ (source <<< 1)))
      (fun _ _ => True) := by
  refine leaves_readFaddr.bind_eq ?_
  rw [if_pos hfaddr]
  exact leaves_setPc.bind fun _ => leaves_readPc.bind_eq leaves_setFaddr

inductive ICTAddress
  | none | faddr | both | call
  deriving DecidableEq, Repr

/-- `none` for a `ckdf` that the event does not have. -/
def ICT.address (m : ICT) : Option ICTAddress :=
  match ICTReason.ofCode m.cksrc with
  | some .extTrig | some .watchpoint =>
    if m.ckdf = 0 then some .faddr else if m.ckdf = 1 then some .both else none
  | some .inferableCall =>
    if m.ckdf = 0 then some .both else if m.ckdf = 1 then some .call else none
  | some .exception | some .interrupt | some .context => if m.ckdf = 1 then some .both else none
  | some .pcSample => if m.ckdf = 0 then some .both else none
  | some .control => if m.ckdf = 0 then some .none else if m.ckdf = 1 then some .both else none
  | none => none

/-- The addresses `faddr` and `pc` after an in-circuit trace message. -/
def ICTAddress.after (m : ICT) (faddr pc : ADDRESS) : ICTAddress → ADDRESS × ADDRESS
  | none => (faddr, pc)
  | .faddr => (xorAddr faddr m.ckdata0, pc)
  | both => (xorAddr faddr m.ckdata0, xorAddr faddr m.ckdata0)
  | call => (faddr ^^^ (m.ckdata0 <<< 1) ^^^ (m.ckdata1 <<< 1), faddr ^^^ (m.ckdata0 <<< 1))

theorem keeps_faddr_convertEvent (call : ADDRESS → ConverterCall) :
    Keeps (At (E := E) c faddr pc) (DecoderM.faddr >>= fun a => convertEvent pIndex (call a)) :=
  Keeps.read.bind fun _ => keeps_convertEvent _

theorem keeps_pc_convertEvent (call : ADDRESS → ConverterCall) :
    Keeps (At (E := E) c faddr pc) (DecoderM.pc >>= fun a => convertEvent pIndex (call a)) :=
  Keeps.read.bind fun _ => keeps_convertEvent _

theorem keeps_context (call : ADDRESS → ConverterCall) (tag : BitVec 8) :
    Keeps (At (E := E) c faddr pc)
      (switchContext pIndex pid tag >>= fun pIndex => DecoderM.pc >>= fun a => convertEvent pIndex
        (call a)) :=
  (keeps_switchContext tag).bind fun _ => keeps_pc_convertEvent call

section
variable {faddr' : ADDRESS} {setAddr tail : DecoderM E Unit}

theorem leaves_thenPc
    (hset : Leaves (At c faddr pc) setAddr (fun _ => At c faddr' pc) (fun _ _ => True))
    (htail : Keeps (At c faddr' faddr') tail) :
    Leaves (At c faddr pc) (setAddr >>= fun _ => setPcToFaddr >>= fun _ => tail)
      (fun _ => At c faddr' faddr') (fun _ _ => True) :=
  hset.bind fun _ => leaves_setPcToFaddr.bind fun _ => htail.leaves

theorem leaves_then
    (hset : Leaves (At c faddr pc) setAddr (fun _ => At c faddr' pc) (fun _ _ => True))
    (htail : Keeps (At c faddr' pc) tail) :
    Leaves (At c faddr pc) (setAddr >>= fun _ => tail) (fun _ => At c faddr' pc)
      (fun _ _ => True) :=
  hset.bind fun _ => htail.leaves

end

theorem keeps_control (call : ConverterCall) :
    Keeps (At (E := E) c faddr pc)
      (EStateM.read (·.eventConverter p) >>= fun isOpen => EStateM.onlyIf isOpen (emit p call)) :=
  Keeps.read.bind fun _ => Keeps.onlyIf fun _ => keeps_emit call

theorem leaves_processICT (m : ICT) {e : ICTAddress} (he : m.address = some e)
    (hfaddr : e = .call → faddr ≠ 0) :
    Leaves (At (E := E) c faddr pc) (processICT pIndex pid m)
      (fun _ => At c (e.after m faddr pc).1 (e.after m faddr pc).2) (fun _ _ => True) := by
  unfold ICT.address at he
  unfold processICT
  have hxor : Leaves (At (E := E) c faddr pc) (xorFaddr m.ckdata0)
      (fun _ => At c (xorAddr faddr m.ckdata0) pc) (fun _ _ => True) := leaves_xorFaddr _
  cases hsrc : ICTReason.ofCode m.cksrc with
  | none => rw [hsrc] at he; cases he
  | some src =>
    cases src <;> simp only [hsrc] at he ⊢
    case extTrig | watchpoint =>
      split_ifs at he ⊢ <;> cases he
      · exact leaves_then hxor (keeps_faddr_convertEvent _)
      · exact leaves_thenPc hxor (keeps_faddr_convertEvent _)
    case inferableCall =>
      split_ifs at he ⊢ <;> cases he
      · refine leaves_thenPc hxor ?_
        cases pIndex with
        | none => exact Keeps.pure
        | some p =>
          refine Keeps.onlyIf fun _ => Keeps.read.bind fun _ => keeps_nextAddr.bind fun _ => ?_
          exact keeps_setCkdata1.bind fun _ => (Keeps.onlyIf fun _ => keeps_emit _).bind fun _ =>
            Keeps.onlyIf fun _ => keeps_openEventConverter.bind fun _ => keeps_emit _
      · refine (leaves_xorPcFaddr (hfaddr rfl) _ _).bind fun _ => Keeps.leaves ?_
        cases pIndex with
        | none => exact Keeps.pure
        | some p =>
          refine Keeps.onlyIf fun _ => Keeps.read.bind fun _ => Keeps.read.bind fun _ => ?_
          exact keeps_nextAddr.bind fun _ => (Keeps.onlyIf fun _ => keeps_convertCtf _ _ _).bind
              fun _ =>
            keeps_openEventConverter.bind fun _ => keeps_emit _
    case exception | interrupt | pcSample =>
      split_ifs at he ⊢
      cases he
      exact leaves_thenPc hxor (keeps_pc_convertEvent _)
    case context =>
      split_ifs at he ⊢
      cases he
      exact leaves_thenPc hxor (keeps_context _ _)
    case control =>
      split_ifs at he ⊢ <;> cases he
      · cases pIndex with
        | none => exact Keeps.pure.leaves
        | some p => exact (keeps_control _).leaves
      · exact leaves_thenPc hxor (keeps_pc_convertEvent _)

/-- The addresses after a message with sync; the destination of a call is relative to its source. -/
def ICTAddress.afterWS (m : ICT) (faddr pc : ADDRESS) : ICTAddress → ADDRESS × ADDRESS
  | none => (faddr, pc)
  | .faddr => (m.ckdata0 <<< 1, pc)
  | both => (m.ckdata0 <<< 1, m.ckdata0 <<< 1)
  | call => (m.ckdata0 <<< 1 ^^^ (m.ckdata1 <<< 1), m.ckdata0 <<< 1)

theorem leaves_processICTWS (m : ICT) {e : ICTAddress} (he : m.address = some e) :
    Leaves (At (E := E) c faddr pc) (processICTWS pIndex pid m)
      (fun _ => At c (e.afterWS m faddr pc).1 (e.afterWS m faddr pc).2) (fun _ _ => True) := by
  unfold ICT.address at he
  unfold processICTWS
  have hset : Leaves (At (E := E) c faddr pc) (setFaddr (m.ckdata0 <<< 1))
      (fun _ => At c (m.ckdata0 <<< 1) pc) (fun _ _ => True) := leaves_setFaddr
  have hle : m.ckdf ≠ 0 → (m.ckdf ≤ 1 ↔ m.ckdf = 1) := fun h => by bv_omega
  cases hsrc : ICTReason.ofCode m.cksrc with
  | none => rw [hsrc] at he; cases he
  | some src =>
    cases src <;> simp only [hsrc] at he ⊢
    case extTrig =>
      split_ifs at he ⊢ <;> cases he
      · exact leaves_then hset (keeps_faddr_convertEvent _)
      · exact leaves_thenPc hset (keeps_faddr_convertEvent _)
    case watchpoint =>
      by_cases h₀ : m.ckdf = 0
      · rw [if_pos h₀] at he ⊢
        cases he
        exact leaves_then hset (keeps_faddr_convertEvent _)
      · simp only [h₀, hle h₀, if_false] at he ⊢
        split_ifs at he ⊢
        cases he
        exact leaves_thenPc hset (keeps_faddr_convertEvent _)
    case inferableCall =>
      split_ifs at he ⊢ <;> cases he
      · refine leaves_thenPc hset ?_
        cases pIndex with
        | none => exact Keeps.pure
        | some p =>
          refine Keeps.onlyIf fun _ => Keeps.read.bind fun _ => keeps_nextAddr.bind fun _ => ?_
          exact keeps_setCkdata1.bind fun _ => (Keeps.onlyIf fun _ => keeps_emit _).bind fun _ =>
            Keeps.onlyIf fun _ => Keeps.read.bind fun _ => keeps_openEventConverter.bind
              fun _ => keeps_emit _
      · refine leaves_setPc.bind fun _ => leaves_readPc.bind_eq (leaves_setFaddr.bind fun _ =>
          Keeps.leaves ?_)
        cases pIndex with
        | none => exact Keeps.pure
        | some p =>
          refine Keeps.onlyIf fun _ => Keeps.read.bind fun _ => Keeps.read.bind fun _ => ?_
          exact keeps_nextAddr.bind fun _ => Keeps.onlyIf fun _ => (keeps_convertCtf _ _ _).bind
              fun _ =>
            Keeps.onlyIf fun _ => keeps_openEventConverter.bind fun _ => keeps_emit _
    case exception | interrupt | pcSample =>
      split_ifs at he ⊢
      cases he
      exact leaves_thenPc hset (keeps_pc_convertEvent _)
    case context =>
      split_ifs at he ⊢
      cases he
      exact leaves_thenPc hset (keeps_context _ _)
    case control =>
      split_ifs at he ⊢ <;> cases he
      · exact (keeps_convertEvent _).leaves
      · exact leaves_thenPc hset (keeps_pc_convertEvent _)

end

end TraceDecoder
