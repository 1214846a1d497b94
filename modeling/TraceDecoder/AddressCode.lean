import TraceDecoder.AddressSteps

/-!
# Address fields

Messages carry half an address, or half of its difference to the address before it. For any such way
to send addresses, `processTraceMessage` leaves what the fields give in the entries of the core.
-/

namespace TraceDecoder

open DecoderM

variable {E : Env}

/-- The fields of the addresses, whole and relative to the address before, and
what is rebuilt from them. -/
structure AddressCode where
  full : ADDRESS → ADDRESS
  rel : ADDRESS → ADDRESS → ADDRESS
  valid : ADDRESS → Prop
  rebuilt : ADDRESS → ADDRESS
  full_shift : ∀ a, valid a → full a <<< 1 = rebuilt a
  rel_shift : ∀ last a, valid last → valid a → rebuilt last ^^^ (rel last a <<< 1) = rebuilt a

/-- After the address `last` the message carries the address `next`; `event` is the address of its
event if the message is of a kind that says where the program is. -/
def AddressCode.Carries (code : AddressCode) (last : ADDRESS) (body : MessageBody) (next : ADDRESS)
    (event : Option ADDRESS) : Prop :=
  match body with
  | .sync _ _ f_addr | .directBranchWS _ _ f_addr | .indirectBranchWS _ _ _ f_addr
  | .indirectHistoryWS _ _ _ f_addr _ => f_addr = code.full next ∧ event = some next
  | .indirectBranch _ _ u_addr | .indirectHistory _ _ u_addr _ =>
    u_addr = code.rel last next ∧ event = some next
  | .ict m =>
    match m.address with
    | some .none => next = last ∧ event = none
    | some .faddr => m.ckdata0 = code.rel last next ∧ event = none
    | some .both => m.ckdata0 = code.rel last next ∧ event = some next
    | some .call => ∃ source, code.valid source ∧ m.ckdata0 = code.rel last source ∧
        m.ckdata1 = code.rel source next ∧ event = some source
    | none => False
  | .ictWS m =>
    match m.address with
    | some .none => next = last ∧ event = none
    | some .faddr => m.ckdata0 = code.full next ∧ event = none
    | some .both => m.ckdata0 = code.full next ∧ event = some next
    | some .call => ∃ source, code.valid source ∧ m.ckdata0 = code.full source ∧
        m.ckdata1 = code.rel source next ∧ event = some source
    | none => False
  | .directBranch _ | .dataAcquisition .. | .resourceFull _ | .correlation .. | .ownership .. =>
    next = last ∧ event = none
  | .error _ | .auxAccessWrite .. | .other _ => False

def HasFullAddress : MessageBody → Prop
  | .sync .. | .directBranchWS .. | .indirectBranchWS .. | .indirectHistoryWS .. => True
  | .ictWS m => m.address ≠ some .none
  | _ => False

def IsRelative : MessageBody → Prop
  | .indirectBranch .. | .indirectHistory .. => True
  | .ict m => m.address ≠ some .none
  | _ => False

structure Rebuilt (c : ℕ) (next : ADDRESS) (event : Option ADDRESS) (d : Decoder E) : Prop where
  faddr : (d.core c).lastFaddr = next
  pc : ∀ a ∈ event, (d.core c).currentAddress = a

section
variable {code : AddressCode} {c : ℕ} {faddr pc last next : ADDRESS} {event : Option ADDRESS}
    {pIndex : Option ℕ} {pid : BitVec 32}
  {body : MessageBody} {d d' : Decoder E}

theorem At.rebuilt_none (h : At c faddr pc d) : Rebuilt c faddr none d := ⟨h.faddr, nofun⟩

theorem At.rebuilt_some (h : At c faddr pc d) : Rebuilt c faddr (some pc) d :=
  ⟨h.faddr, fun _ ha => by rw [h.pc]; exact Option.some.inj ha⟩

theorem leaves_processUAddr (u_addr : ADDRESS) :
    Leaves (At (E := E) c faddr pc) (processUAddr u_addr)
      (fun _ => At c (xorAddr faddr u_addr) (xorAddr faddr u_addr)) (fun _ _ => True) :=
  (keeps_updateTime _).leaves.bind fun _ => leaves_thenPc (leaves_xorFaddr _)
    (keeps_setPrevMsgWasSync _)

theorem leaves_processSync (f_addr : ADDRESS) :
    Leaves (At (E := E) c faddr pc) (processSync f_addr)
      (fun _ => At c (f_addr <<< 1) (f_addr <<< 1)) (fun _ _ => True) := by
  refine keeps_requireNoCounts.leaves.bind fun _ => (keeps_updateTime _).leaves.bind fun _ =>
    leaves_thenPc leaves_setFaddr (Keeps.bind ?_ fun _ => keeps_setPrevMsgWasSync _)
  exact Keeps.modify fun _ h => h.modifyCore (fun _ => rfl) fun _ => rfl

theorem xorAddr_rel (hzero : code.rebuilt last ≠ 0) (hlast : code.valid last)
    (hnext : code.valid next) :
    xorAddr (code.rebuilt last) (code.rel last next) = code.rebuilt next := by
  rw [xorAddr, if_pos hzero, code.rel_shift last next hlast hnext]

theorem leaves_sync {f_addr : ADDRESS} (hnext : code.valid next)
    (h : f_addr = code.full next ∧ event = some next) :
    Leaves (At (E := E) c faddr pc) (processSync f_addr)
      (fun _ => Rebuilt c (code.rebuilt next) (event.map code.rebuilt)) (fun _ _ => True) := by
  obtain ⟨rfl, rfl⟩ := h
  refine (leaves_processSync _).weaken (fun _ h => h) (fun _ d h => ?_) fun _ _ h => h
  rw [code.full_shift next hnext] at h
  exact h.rebuilt_some

theorem leaves_uAddr {u_addr : ADDRESS} (hzero : code.rebuilt last ≠ 0) (hlast : code.valid last)
    (hnext : code.valid next) (h : u_addr = code.rel last next ∧ event = some next) :
    Leaves (At (E := E) c (code.rebuilt last) pc) (processUAddr u_addr)
      (fun _ => Rebuilt c (code.rebuilt next) (event.map code.rebuilt)) (fun _ _ => True) := by
  obtain ⟨rfl, rfl⟩ := h
  refine (leaves_processUAddr _).weaken (fun _ h => h) (fun _ d h => ?_) fun _ _ h => h
  rw [xorAddr_rel hzero hlast hnext] at h
  exact h.rebuilt_some

theorem leaves_ict {m : ICT} (hzero : m.address ≠ some .none → code.rebuilt last ≠ 0)
    (hlast : code.valid last)
    (hnext : code.valid next) (h : code.Carries last (.ict m) next event) :
    Leaves (At (E := E) c (code.rebuilt last) pc) (processICT pIndex pid m)
      (fun _ => Rebuilt c (code.rebuilt next) (event.map code.rebuilt)) (fun _ _ => True) := by
  simp only [AddressCode.Carries] at h
  cases he : m.address with
  | none => rw [he] at h; exact h.elim
  | some e =>
    refine (leaves_processICT m he fun hcall => hzero (by rw [he, hcall]; decide)).weaken
      (fun _ h => h) (fun _ d hd => ?_) fun _ _ h => h
    rw [he] at h hzero
    cases e with
    | none =>
      obtain ⟨rfl, rfl⟩ := h
      exact hd.rebuilt_none
    | faddr =>
      obtain ⟨hdata, rfl⟩ := h
      simp only [ICTAddress.after, hdata, xorAddr_rel (hzero (by decide)) hlast hnext] at hd
      exact hd.rebuilt_none
    | both =>
      obtain ⟨hdata, rfl⟩ := h
      simp only [ICTAddress.after, hdata, xorAddr_rel (hzero (by decide)) hlast hnext] at hd
      exact hd.rebuilt_some
    | call =>
      obtain ⟨source, hsource, hdata, hdata', rfl⟩ := h
      simp only [ICTAddress.after, hdata, hdata', code.rel_shift _ _ hlast hsource,
        code.rel_shift _ _ hsource hnext] at hd
      exact hd.rebuilt_some

theorem leaves_ictWS {m : ICT} (hnext : code.valid next)
    (hfaddr : m.address = some .none → faddr = code.rebuilt last)
    (h : code.Carries last (.ictWS m) next event) :
    Leaves (At (E := E) c faddr pc) (processICTWS pIndex pid m)
      (fun _ => Rebuilt c (code.rebuilt next) (event.map code.rebuilt)) (fun _ _ => True) := by
  simp only [AddressCode.Carries] at h
  cases he : m.address with
  | none => rw [he] at h; exact h.elim
  | some e =>
    refine (leaves_processICTWS m he).weaken (fun _ h => h) (fun _ d hd => ?_) fun _ _ h => h
    rw [he] at h
    cases e with
    | none =>
      obtain rfl := hfaddr he
      obtain ⟨rfl, rfl⟩ := h
      exact hd.rebuilt_none
    | faddr =>
      obtain ⟨hdata, rfl⟩ := h
      simp only [ICTAddress.afterWS, hdata, code.full_shift next hnext] at hd
      exact hd.rebuilt_none
    | both =>
      obtain ⟨hdata, rfl⟩ := h
      simp only [ICTAddress.afterWS, hdata, code.full_shift next hnext] at hd
      exact hd.rebuilt_some
    | call =>
      obtain ⟨source, hsource, hdata, hdata', rfl⟩ := h
      simp only [ICTAddress.afterWS, hdata, hdata', code.full_shift source hsource,
        code.rel_shift _ _ hsource hnext] at hd
      exact hd.rebuilt_some

/-- Messages without an address leave both entries alone. -/
theorem keeps_ownership (newPid : ℤ) (v : BitVec 1) (prv tag : BitVec 2) :
    Keeps (At (E := E) c faddr pc) (processTCode pIndex pid (.ownership newPid v prv tag)) := by
  refine (keeps_updateTime _).bind fun _ => ?_
  split_ifs
  · exact keeps_setCurrentPrv _
  · exact (keeps_processPidPriv _ _).bind fun _ => Keeps.pure
  · exact Keeps.throw

theorem Keeps.leaves_rebuilt {p : DecoderM E Unit} (hp : Keeps (At c (code.rebuilt last) pc) p)
    (h : next = last ∧ event = none) :
    Leaves (At c (code.rebuilt last) pc) p
      (fun _ => Rebuilt c (code.rebuilt next) (event.map code.rebuilt)) (fun _ _ => True) := by
  obtain ⟨rfl, rfl⟩ := h
  exact hp.leaves.weaken (fun _ h => h) (fun _ _ h => h.rebuilt_none) fun _ _ h => h

/-- The entry the message is added to: a relative address needs one that is not 0, the mark of an
address that is not known. -/
def Follows (code : AddressCode) (last : ADDRESS) (body : MessageBody) (faddr : ADDRESS) : Prop :=
  faddr = code.rebuilt last ∧ code.valid last ∧ (IsRelative body → code.rebuilt last ≠ 0)

/-- **One message** leaves what its fields give, if it has a full address or follows one. -/
theorem leaves_processTCode (hnext : code.valid next) (hbody : code.Carries last body next event)
    (hfaddr : HasFullAddress body ∨ Follows code last body faddr) :
    Leaves (At (E := E) c faddr pc) (processTCode pIndex pid body)
      (fun _ => Rebuilt c (code.rebuilt next) (event.map code.rebuilt)) (fun _ _ => True) := by
  cases body with
  | sync | directBranchWS | indirectBranchWS | indirectHistoryWS => exact leaves_sync hnext hbody
  | ictWS m =>
    refine (keeps_updateTime _).leaves.bind fun _ => (keeps_setPrevMsgWasSync _).leaves.bind
        fun _ =>
      leaves_ictWS hnext (fun he => ?_) hbody
    exact hfaddr.elim (fun h => absurd he h) And.left
  | ict m =>
    obtain ⟨rfl, hlast, hzero⟩ := hfaddr.resolve_left id
    exact (keeps_updateTime _).leaves.bind fun _ => (keeps_setPrevMsgWasSync _).leaves.bind fun _ =>
      leaves_ict hzero hlast hnext hbody
  | indirectBranch =>
    obtain ⟨rfl, hlast, hzero⟩ := hfaddr.resolve_left id
    exact leaves_uAddr (hzero trivial) hlast hnext hbody
  | indirectHistory =>
    obtain ⟨rfl, hlast, hzero⟩ := hfaddr.resolve_left id
    exact keeps_requireNoBranchCounts.leaves.bind fun _ => leaves_uAddr (hzero trivial) hlast hnext
      hbody
  | directBranch | correlation =>
    obtain ⟨rfl, -⟩ := hfaddr.resolve_left id
    exact Keeps.leaves_rebuilt ((keeps_updateTime _).bind fun _ => keeps_setPrevMsgWasSync _) hbody
  | dataAcquisition =>
    obtain ⟨rfl, -⟩ := hfaddr.resolve_left id
    exact Keeps.leaves_rebuilt ((keeps_updateTime _).bind fun _ => keeps_convertPerf _ _) hbody
  | resourceFull =>
    obtain ⟨rfl, -⟩ := hfaddr.resolve_left id
    exact Keeps.leaves_rebuilt ((Keeps.onlyIf fun _ => keeps_requireNoBranchCounts).bind fun _ =>
      (keeps_updateTime _).bind fun _ => keeps_setPrevMsgWasSync _) hbody
  | ownership =>
    obtain ⟨rfl, -⟩ := hfaddr.resolve_left id
    exact Keeps.leaves_rebuilt (keeps_ownership _ _ _ _) hbody
  | error | auxAccessWrite | other => exact hbody.elim

theorem processTraceMessage_rebuilt (code : AddressCode) (hcur : d.currentCore = c)
    (hmsg : d.nm.core = c) (hstep : processTraceMessage d = .ok () d') (hnext : code.valid next)
    (hbody : code.Carries last d.nm.body next event)
    (hfaddr : HasFullAddress d.nm.body ∨ Follows code last d.nm.body (d.core c).lastFaddr) :
    Rebuilt c (code.rebuilt next) (event.map code.rebuilt) d' := by
  have hat : At c (d.core c).lastFaddr (d.core c).currentAddress { d with consumed := false } :=
    ⟨hcur, hmsg, rfl, rfl⟩
  rw [processTraceMessage_eq] at hstep
  exact (leaves_processTCode hnext hbody hfaddr).of_ok hat hstep

end

end TraceDecoder
