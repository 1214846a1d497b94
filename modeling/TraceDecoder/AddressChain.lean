import TraceDecoder.AddressCode

/-!
# Compressed addresses

Messages carry half an address, or half of its difference to the address before it. In a sequence
that starts with a full address, `processTraceMessage` rebuilds every address.
-/

namespace TraceDecoder

open DecoderM EStateM

variable {E : Env}

/-- The addresses of instructions; 0 stands for an address that is not known. -/
def Known (a : ADDRESS) : Prop := a ≠ 0 ∧ a[0] = false

instance : DecidablePred Known := fun a => inferInstanceAs (Decidable (a ≠ 0 ∧ a[0] = false))

def fullAddr (a : ADDRESS) : ADDRESS := a >>> 1

def uAddr (last a : ADDRESS) : ADDRESS := (last ^^^ a) >>> 1

theorem fullAddr_shift {a : ADDRESS} (h : Known a) : fullAddr a <<< 1 = a := by
  apply BitVec.eq_of_getLsbD_eq
  intro i hi
  cases i with
  | zero => simp [fullAddr, h.2]
  | succ i => simp [fullAddr, hi, Nat.add_comm]

theorem uAddr_shift {last a : ADDRESS} (hlast : Known last) (h : Known a) :
    last ^^^ (uAddr last a <<< 1) = a := by
  apply BitVec.eq_of_getLsbD_eq
  intro i hi
  cases i with
  | zero => simp [uAddr, h.2, hlast.2]
  | succ i => simp [uAddr, hi, Nat.add_comm]

/-- After the address `last` the message carries the address `next`; `event` is the address of its
event if the message is of a kind that says where the program is. -/
def Carries (last : ADDRESS) (body : MessageBody) (next : ADDRESS) (event : Option ADDRESS) :
    Prop :=
  match body with
  | .sync _ _ f_addr | .directBranchWS _ _ f_addr | .indirectBranchWS _ _ _ f_addr
  | .indirectHistoryWS _ _ _ f_addr _ => f_addr = fullAddr next ∧ event = some next
  | .indirectBranch _ _ u_addr | .indirectHistory _ _ u_addr _ =>
    u_addr = uAddr last next ∧ event = some next
  | .ict m =>
    match m.address with
    | some .none => next = last ∧ event = none
    | some .faddr => m.ckdata0 = uAddr last next ∧ event = none
    | some .both => m.ckdata0 = uAddr last next ∧ event = some next
    | some .call => ∃ source, Known source ∧ m.ckdata0 = uAddr last source ∧
        m.ckdata1 = uAddr source next ∧ event = some source
    | none => False
  | .ictWS m =>
    match m.address with
    | some .none => next = last ∧ event = none
    | some .faddr => m.ckdata0 = fullAddr next ∧ event = none
    | some .both => m.ckdata0 = fullAddr next ∧ event = some next
    | some .call => ∃ source, Known source ∧ m.ckdata0 = fullAddr source ∧
        m.ckdata1 = uAddr source next ∧ event = some source
    | none => False
  | .directBranch _ | .dataAcquisition .. | .resourceFull _ | .correlation .. | .ownership .. =>
    next = last ∧ event = none
  | .error _ | .auxAccessWrite .. | .other _ => False

def plainCode : AddressCode where
  full := fullAddr
  rel := uAddr
  valid := Known
  rebuilt := id
  full_shift _ := fullAddr_shift
  rel_shift _ _ := uAddr_shift

theorem carries_iff {last next : ADDRESS} {body : MessageBody} {event : Option ADDRESS} :
    Carries last body next event ↔ plainCode.Carries last body next event := by
  cases body <;> exact Iff.rfl

theorem processTraceMessage_rebuilt_plain {c : ℕ} {last next : ADDRESS} {event : Option ADDRESS}
    {d d' : Decoder E}
    (hcur : d.currentCore = c) (hmsg : d.nm.core = c) (hstep : processTraceMessage d = .ok () d')
    (hnext : Known next) (hbody : Carries last d.nm.body next event)
    (hfaddr : HasFullAddress d.nm.body ∨ (d.core c).lastFaddr = last ∧ Known last) :
    Rebuilt c next event d' := by
  have hrebuilt :=
    processTraceMessage_rebuilt plainCode hcur hmsg hstep hnext (carries_iff.mp hbody)
      (hfaddr.imp_right fun h => ⟨h.1, h.2, fun _ => h.2.1⟩)
  simpa only [plainCode, Option.map_id, id] using hrebuilt

/-! ### Sequences of messages -/

/-- Messages of core `c` processed one after the other, each from a decoder whose `lastFaddr` is as
the message before has left it, and with success. -/
inductive Processed (c : ℕ) : ADDRESS → List (Decoder E × Decoder E) → Prop
  | nil {faddr} : Processed c faddr []
  | cons {faddr d d' run} (hcur : d.currentCore = c) (hmsg : d.nm.core = c)
      (hfaddr : (d.core c).lastFaddr = faddr) (hstep : processTraceMessage d = .ok () d')
      (hrest : Processed c (d'.core c).lastFaddr run) : Processed c faddr ((d, d') :: run)

/-- The addresses a sequence of messages carries, with those of their events. -/
inductive Chain : ADDRESS → List MessageBody → List (ADDRESS × Option ADDRESS) → Prop
  | nil {last} : Chain last [] []
  | cons {last body next event bodies addrs} (hbody : Carries last body next event)
      (hnext : Known next) (hrest : Chain next bodies addrs) :
        Chain last (body :: bodies) ((next, event) :: addrs)

section
variable {c : ℕ} {last : ADDRESS}

theorem Processed.rebuilt {run : List (Decoder E × Decoder E)}
    {addrs : List (ADDRESS × Option ADDRESS)}
    (hrun : Processed c last run) (hchain : Chain last (run.map (·.1.nm.body)) addrs)
    (hlast : Known last) :
    List.Forall₂ (fun s a => Rebuilt c a.1 a.2 s.2) run addrs := by
  induction run generalizing last addrs with
  | nil =>
    cases hchain
    exact .nil
  | cons s run ih =>
    cases hrun with
    | cons hcur hmsg hfaddr hstep hrest =>
      cases hchain with
      | cons hbody hnext hchain =>
        have hrebuilt :=
          processTraceMessage_rebuilt_plain hcur hmsg hstep hnext hbody (.inr ⟨hfaddr, hlast⟩)
        rw [hrebuilt.faddr] at hrest
        exact .cons hrebuilt (ih hrest hchain hnext)

/-- **Compressed addresses.** In a sequence of messages that starts with a full address every
address is rebuilt. -/
theorem processTraceMessage_chain {faddr : ADDRESS} {s : Decoder E × Decoder E}
    {run : List (Decoder E × Decoder E)} {addrs : List (ADDRESS × Option ADDRESS)}
    (hrun : Processed c faddr (s :: run)) (hfirst : HasFullAddress s.1.nm.body)
    (hchain : Chain last ((s :: run).map (·.1.nm.body)) addrs) :
    List.Forall₂ (fun s a => Rebuilt c a.1 a.2 s.2) (s :: run) addrs := by
  cases hrun with
  | cons hcur hmsg hfaddr hstep hrest =>
    cases hchain with
    | cons hbody hnext hchain =>
      have hrebuilt := processTraceMessage_rebuilt_plain hcur hmsg hstep hnext hbody (.inl hfirst)
      rw [hrebuilt.faddr] at hrest
      exact .cons hrebuilt (hrest.rebuilt hchain hnext)

end

/-- The decoders before and after each message of a core, each message processed where the one
before has left off. -/
def processAll (d : Decoder E) : List MessageBody → List (Decoder E × Decoder E)
  | [] => []
  | body :: bodies =>
    let d := { d with nm := { d.nm with body := body } }
    (d, (processTraceMessage d).state) :: processAll (processTraceMessage d).state bodies

theorem bodies_processAll (d : Decoder E) (bodies : List MessageBody) :
    (processAll d bodies).map (·.1.nm.body) = bodies := by
  induction bodies generalizing d with
  | nil => rfl
  | cons body bodies ih => rw [processAll, List.map_cons, ih]

theorem processed_processAll (c : ℕ) (d : Decoder E) (bodies : List MessageBody)
    (h : ∀ s ∈ processAll d bodies,
      s.1.currentCore = c ∧ s.1.nm.core = c ∧ (processTraceMessage s.1).isOk = true) :
    Processed c (d.core c).lastFaddr (processAll d bodies) := by
  induction bodies generalizing d with
  | nil => exact .nil
  | cons body bodies ih =>
    obtain ⟨⟨hcur, hmsg, hok⟩, hrest⟩ := List.forall_mem_cons.mp h
    exact .cons hcur hmsg rfl (Result.eq_ok hok) (ih _ hrest)

def coldDecoder (E : Env) (c : BitVec 8) : Decoder E :=
  { (Trace.init E .htm (SliceFileParser.init 2 []) none).toDecoder with
    currentCore := c.toNat
    nm := { NexusMessage.init with coreId := c } }

def sampleEnv : Env := Env.bareMetal false Program.empty

def sampleBodies : List MessageBody :=
  [.sync 5 0 (fullAddr 0x100), .directBranch 4, .indirectHistory 0 12 (uAddr 0x100 0x2040) 3,
    .ict ⟨9, 1, uAddr 0x2040 0x2052, uAddr 0x2052 0x8000⟩, .ict ⟨8, 0, uAddr 0x8000 0x8006, 0⟩,
    .indirectBranch 1 2 (uAddr 0x8006 0x2056)]

theorem processTraceMessage_chain_sample :
    List.Forall₂ (fun s a => Rebuilt 3 a.1 a.2 s.2)
      (processAll (coldDecoder sampleEnv 3) sampleBodies)
      [(0x100, some 0x100), (0x100, none), (0x2040, some 0x2040), (0x8000, some 0x2052),
      (0x8006, none),
        (0x2056, some 0x2056)] := by
  have hrun : Processed 3 0 (processAll (coldDecoder sampleEnv 3) sampleBodies) :=
    processed_processAll 3 (coldDecoder sampleEnv 3) sampleBodies (by decide +kernel)
  have hchain : Chain 0 sampleBodies [(0x100, some 0x100), (0x100, none), (0x2040, some 0x2040),
      (0x8000, some 0x2052), (0x8006, none), (0x2056, some 0x2056)] :=
    .cons ⟨rfl, rfl⟩ (by decide) (.cons ⟨rfl, rfl⟩ (by decide) (.cons ⟨rfl, rfl⟩ (by decide)
      (.cons ⟨0x2052, by decide, rfl, rfl, rfl⟩ (by decide) (.cons ⟨rfl, rfl⟩ (by decide)
        (.cons ⟨rfl, rfl⟩ (by decide) .nil)))))
  rw [← bodies_processAll (coldDecoder sampleEnv 3) sampleBodies] at hchain
  exact processTraceMessage_chain hrun trivial hchain

end TraceDecoder
