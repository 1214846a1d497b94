import TraceDecoder.AddressCode
import TraceDecoder.NextInstruction

/-!
# Addresses of Linux traces

Virtual addresses are sent without their upper bits, which are copies of the most significant bit
sent. The sign extension looks for that bit one place too high in a field that holds half an
address, so what is rebuilt is the address without its upper bits.
-/

namespace TraceDecoder

open DecoderM EStateM

variable {n : ℕ} {a last next : ADDRESS}

/-- `address mod 2^n`. -/
def lowBits (n : ℕ) (a : ADDRESS) : ADDRESS := (a.setWidth n).setWidth 64

/-- Half-word aligned, with bits 63 to `n` equal to bit `n - 1`. -/
def Canonical (n : ℕ) (a : ADDRESS) : Prop := (a.setWidth n).signExtend 64 = a ∧ a.getLsbD 0 = false

instance : DecidablePred (Canonical n) := fun a =>
  inferInstanceAs (Decidable ((a.setWidth n).signExtend 64 = a ∧ a.getLsbD 0 = false))

def LowerHalf (n : ℕ) (a : ADDRESS) : Prop := a.getLsbD (n - 1) = false

theorem getLsbD_lowBits (n : ℕ) (a : ADDRESS) (i : ℕ) : (lowBits n a).getLsbD i =
    (decide (i < n) && a.getLsbD i) := by
  by_cases hi : i < 64
  · simp [lowBits, hi]
  · simp [lowBits, hi, a.getLsbD_of_ge i (Nat.not_lt.mp hi)]

theorem lowBits_xor (n : ℕ) (a b : ADDRESS) :
    lowBits n (a ^^^ b) = lowBits n a ^^^ lowBits n b := by
  apply BitVec.eq_of_getLsbD_eq
  intro i _
  rw [BitVec.getLsbD_xor, getLsbD_lowBits, getLsbD_lowBits, getLsbD_lowBits, BitVec.getLsbD_xor,
    Bool.and_xor_distrib_left]

theorem half_shift (h : a.getLsbD 0 = false) : a >>> 1 <<< 1 = a := by
  apply BitVec.eq_of_getLsbD_eq
  intro i hi
  cases i with
  | zero =>
    rw [h]
    simp
  | succ i => simp [hi, Nat.add_comm]

theorem Canonical.even (h : Canonical n a) : (lowBits n a).getLsbD 0 = false := by
  rw [getLsbD_lowBits, h.2, Bool.and_false]

theorem Canonical.lowBits_ne_zero (h : Canonical n a) (ha : a ≠ 0) : lowBits n a ≠ 0 := by
  intro hzero
  have hlow : a.setWidth n = 0#n := by
    apply BitVec.eq_of_getLsbD_eq
    intro i hi
    have hbit := congrArg (BitVec.getLsbD · i) hzero
    simpa [getLsbD_lowBits, hi] using hbit
  apply ha
  rw [← h.1, hlow]
  apply BitVec.eq_of_getLsbD_eq
  intro i _
  simp [BitVec.getLsbD_signExtend]

/-- Addresses of `n` bits, without the upper ones. -/
def linuxCode (n : ℕ) : AddressCode where
  full a := lowBits n a >>> 1
  rel last a := lowBits n (last ^^^ a) >>> 1
  valid := Canonical n
  rebuilt := lowBits n
  full_shift a h := half_shift h.even
  rel_shift last a hlast h := by
    rw [lowBits_xor, half_shift (by rw [BitVec.getLsbD_xor, hlast.even, h.even]; rfl),
      ← BitVec.xor_assoc, BitVec.xor_self, BitVec.zero_xor]

theorem lowBits_eq_self_iff (hn : 0 < n) (hn' : n ≤ 63) (h : Canonical n a) :
    lowBits n a = a ↔ LowerHalf n a := by
  have hbits : ∀ i < 64, a.getLsbD i = if i < n then a.getLsbD i else a.getLsbD (n - 1) := by
    intro i hi
    have hext := congrArg (BitVec.getLsbD · i) h.1
    simp only [BitVec.getLsbD_signExtend, hi, decide_true, Bool.true_and, BitVec.getLsbD_setWidth,
      BitVec.msb_eq_getLsbD_last] at hext
    split_ifs at hext ⊢ with hlt
    · rfl
    · rw [← hext]
      simp [show n - 1 < n by omega]
  constructor
  · intro heq
    have hbit := congrArg (BitVec.getLsbD · n) heq
    simp only [getLsbD_lowBits, lt_irrefl, decide_false, Bool.false_and] at hbit
    rw [hbits n (by omega), if_neg (lt_irrefl n)] at hbit
    exact hbit.symm
  · intro hlow
    apply BitVec.eq_of_getLsbD_eq
    intro i hi
    rw [getLsbD_lowBits]
    by_cases hlt : i < n
    · simp [hlt]
    · rw [hbits i hi, if_neg hlt, show a.getLsbD (n - 1) = false from hlow, Bool.and_false]

/-! ### Sign extension -/

/-- Half an address of `n` bits has no bit where the sign extension looks for one. -/
theorem signExtendAddr_half (hn : 0 < n) (hn' : n ≤ 63) (a : ADDRESS) :
    TraceM.signExtendAddr n (lowBits n a >>> 1) = lowBits n a >>> 1 := by
  have hzero : lowBits n a >>> 1 &&& shl64 1 (n - 1) = 0 := by
    rw [shl64, Nat.mod_eq_of_lt (by omega), show (1 : BitVec 64) <<< (n - 1) = BitVec.twoPow 64
      (n - 1) from rfl, BitVec.and_twoPow, BitVec.getLsbD_ushiftRight, getLsbD_lowBits,
        show 1 + (n - 1) = n by omega,
      decide_eq_false (lt_irrefl n)]
    rfl
  rw [TraceM.signExtendAddr, if_neg (not_not.mpr hzero)]

theorem signExtendICT_eq {m : ICT} {e : ICTAddress} (he : m.address = some e)
    (hdata : e ≠ .none → TraceM.signExtendAddr n m.ckdata0 = m.ckdata0)
    (hcall : e = .call → TraceM.signExtendAddr n m.ckdata1 = m.ckdata1) :
    TraceM.signExtendICT n m = m := by
  unfold ICT.address at he
  unfold TraceM.signExtendICT
  cases hsrc : ICTReason.ofCode m.cksrc with
  | none => rfl
  | some src =>
    rw [hsrc] at he
    cases src <;> simp only at he ⊢
    case inferableCall =>
      by_cases hcall' : m.ckdf = 1
      · obtain rfl : ICTAddress.call = e := by simpa [hcall'] using he
        rw [if_pos hcall', hdata nofun, hcall rfl]
      · have hne : e ≠ .none := by
          rintro rfl
          split_ifs at he
          cases he
        rw [if_neg hcall', hdata hne]
    all_goals
      split_ifs at he <;> cases he
      all_goals rw [hdata nofun]

theorem signExtendBody_carries (hn : 0 < n) (hn' : n ≤ 63) {body : MessageBody}
    {event : Option ADDRESS}
    (h : (linuxCode n).Carries last body next event) :
    TraceM.signExtendBody n body = some body := by
  have hext : ∀ {f a}, f = lowBits n a >>> 1 → TraceM.signExtendAddr n f = f := by
    rintro f a rfl
    exact signExtendAddr_half hn hn' a
  cases body with
  | sync | directBranchWS | indirectBranchWS | indirectHistoryWS | indirectBranch | indirectHistory =>
    rw [TraceM.signExtendBody, hext h.1]
  | ict m | ictWS m =>
    simp only [AddressCode.Carries] at h
    rw [TraceM.signExtendBody]
    cases he : m.address with
    | none => rw [he] at h; exact h.elim
    | some e =>
      rw [he] at h
      cases e with
      | none => rw [signExtendICT_eq he (absurd rfl) fun hcall => absurd hcall (by decide)]
      | faddr | both =>
        rw [signExtendICT_eq he (fun _ => hext h.1) fun hcall => absurd hcall (by decide)]
      | call =>
        obtain ⟨source, -, hdata, hdata', -⟩ := h
        rw [signExtendICT_eq he (fun _ => hext hdata) fun _ => hext hdata']
  | directBranch | dataAcquisition | resourceFull | correlation | ownership => rfl
  | error | auxAccessWrite | other => exact h.elim

/-! ### Sequences of messages -/

section
variable {E : Env} {c : ℕ} {faddr : ADDRESS}

/-- Messages of core `c` of a Linux trace: each is sign-extended and processed, from a decoder whose
`lastFaddr` is as the message before has left it. -/
inductive LinuxProcessed (c : ℕ) : ADDRESS → List (Decoder E × Decoder E) → Prop
  | nil {faddr : ADDRESS} : LinuxProcessed c faddr []
  | cons {faddr : ADDRESS} {d d' run body} (hcur : d.currentCore = c) (hmsg : d.nm.core = c)
      (hfaddr : (d.core c).lastFaddr = faddr) (hext : TraceM.signExtendBody E.bitsPerAddress
        d.nm.body = some body)
      (hstep : processTraceMessage { d with nm.body := body } = .ok () d')
      (hrest : LinuxProcessed c (d'.core c).lastFaddr run) : LinuxProcessed c faddr ((d, d') :: run)

/-- The canonical addresses a sequence of messages carries, with those of their events. No address
is sent relative to address 0, which stands for one that is not known. -/
inductive LinuxChain (n : ℕ) : ADDRESS → List MessageBody → List (ADDRESS × Option ADDRESS) → Prop
  | nil {last : ADDRESS} : LinuxChain n last [] []
  | cons {last next : ADDRESS} {body event bodies addrs} (hbody : (linuxCode n).Carries last
      body next event) (hnext : Canonical n next) (hknown : IsRelative body → last ≠ 0)
        (hrest : LinuxChain n next bodies addrs) :
      LinuxChain n last (body :: bodies) ((next, event) :: addrs)

theorem LinuxProcessed.step {s : Decoder E × Decoder E} {run : List (Decoder E × Decoder E)}
    (hn : 0 < E.bitsPerAddress) (hn' : E.bitsPerAddress ≤ 63) {event : Option ADDRESS}
    (hrun : LinuxProcessed c faddr (s :: run)) (hnext : Canonical E.bitsPerAddress next)
    (hbody : (linuxCode E.bitsPerAddress).Carries last s.1.nm.body next event)
    (hfaddr : HasFullAddress s.1.nm.body ∨ Follows (linuxCode E.bitsPerAddress) last s.1.nm.body
      faddr) :
    Rebuilt c (lowBits E.bitsPerAddress next) (event.map (lowBits E.bitsPerAddress)) s.2 ∧
      LinuxProcessed c (lowBits E.bitsPerAddress next) run := by
  cases hrun with
  | cons hcur hmsg hlast hext hstep hrest =>
    rw [signExtendBody_carries hn hn' hbody] at hext
    obtain rfl := Option.some.inj hext
    have hrebuilt :=
      processTraceMessage_rebuilt (linuxCode E.bitsPerAddress) hcur hmsg hstep hnext hbody
        (hlast ▸ hfaddr)
    rw [hrebuilt.faddr] at hrest
    exact ⟨hrebuilt, hrest⟩

theorem LinuxProcessed.rebuilt {run : List (Decoder E × Decoder E)}
    {addrs : List (ADDRESS × Option ADDRESS)}
    (hn : 0 < E.bitsPerAddress) (hn' : E.bitsPerAddress ≤ 63)
    (hrun : LinuxProcessed c (lowBits E.bitsPerAddress last) run)
    (hchain : LinuxChain E.bitsPerAddress last (run.map (·.1.nm.body)) addrs)
    (hlast : Canonical E.bitsPerAddress last) :
    List.Forall₂ (fun s a => Rebuilt c (lowBits E.bitsPerAddress a.1)
        (a.2.map (lowBits E.bitsPerAddress)) s.2)
      run addrs := by
  induction run generalizing last addrs with
  | nil =>
    cases hchain
    exact .nil
  | cons s run ih =>
    cases hchain with
    | cons hbody hnext hknown hchain =>
      obtain ⟨hrebuilt, hrest⟩ := hrun.step hn hn' hnext hbody
        (.inr ⟨rfl, hlast, fun h => hlast.lowBits_ne_zero (hknown h)⟩)
      exact .cons hrebuilt (ih hrest hchain hnext)

/-- The event of a message is one of the addresses it carries. -/
theorem canonical_event {body : MessageBody} {event : Option ADDRESS} (hnext : Canonical n next)
    (h : (linuxCode n).Carries last body next event) : ∀ a ∈ event, Canonical n a := by
  intro a ha
  cases body with
  | sync | directBranchWS | indirectBranchWS | indirectHistoryWS | indirectBranch | indirectHistory =>
    rw [h.2] at ha
    exact Option.some.inj ha ▸ hnext
  | ict m | ictWS m =>
    simp only [AddressCode.Carries] at h
    split at h
    · rw [h.2] at ha; cases ha
    · rw [h.2] at ha; cases ha
    · rw [h.2] at ha; exact Option.some.inj ha ▸ hnext
    · obtain ⟨source, hsource, -, -, rfl⟩ := h
      exact Option.some.inj ha ▸ hsource
    · exact h.elim
  | directBranch | dataAcquisition | resourceFull | correlation | ownership =>
    rw [h.2] at ha; cases ha
  | error | auxAccessWrite | other => exact h.elim

def InLowerHalf (n : ℕ) (a : ADDRESS × Option ADDRESS) : Prop :=
  LowerHalf n a.1 ∧ ∀ e ∈ a.2, LowerHalf n e

/-- Without their upper bits, addresses are rebuilt if and only if these bits are 0. -/
theorem rebuilt_iff (hn : 0 < n) (hn' : n ≤ 63) {d : Decoder E} {event : Option ADDRESS}
    (hnext : Canonical n next)
    (hevent : ∀ a ∈ event, Canonical n a)
    (h : Rebuilt c (lowBits n next) (event.map (lowBits n)) d) :
    Rebuilt c next event d ↔ InLowerHalf n (next, event) := by
  constructor
  · intro hr
    refine ⟨(lowBits_eq_self_iff hn hn' hnext).mp (h.faddr.symm.trans hr.faddr), fun e he => ?_⟩
    have hlow := h.pc (lowBits n e) (Option.mem_map_of_mem _ he)
    exact (lowBits_eq_self_iff hn hn' (hevent e he)).mp (hlow.symm.trans (hr.pc e he))
  · rintro ⟨hlow, hevents⟩
    refine ⟨h.faddr.trans ((lowBits_eq_self_iff hn hn' hnext).mpr hlow), fun e he => ?_⟩
    rw [h.pc (lowBits n e) (Option.mem_map_of_mem _ he)]
    exact (lowBits_eq_self_iff hn hn' (hevent e he)).mpr (hevents e he)

theorem forall₂_rebuilt_iff (hn : 0 < n) (hn' : n ≤ 63) {run : List (Decoder E × Decoder E)}
    {addrs : List (ADDRESS × Option ADDRESS)} {bodies : List MessageBody}
    (hchain : LinuxChain n last bodies addrs)
    (h : List.Forall₂ (fun s a => Rebuilt c (lowBits n a.1) (a.2.map (lowBits n)) s.2) run addrs) :
    List.Forall₂ (fun s a => Rebuilt c a.1 a.2 s.2) run addrs ↔ ∀ a ∈ addrs, InLowerHalf n a := by
  induction h generalizing last bodies with
  | nil => simp
  | cons hs hrest ih =>
    cases hchain with
    | cons hbody hnext _ hchain =>
      rw [List.forall₂_cons, List.forall_mem_cons, rebuilt_iff hn hn' hnext
        (canonical_event hnext hbody) hs, ih hchain]

/-- **Linux traces.** In a sequence of messages that starts with a full address, canonical addresses
are rebuilt if and only if none of them lies in the upper half. -/
theorem linuxTrace_rebuilt {s : Decoder E × Decoder E} {run : List (Decoder E × Decoder E)}
    {addrs : List (ADDRESS × Option ADDRESS)} (hn : 2 ≤ E.bitsPerAddress)
    (hn' : E.bitsPerAddress ≤ 63)
    (hrun : LinuxProcessed c faddr (s :: run)) (hfirst : HasFullAddress s.1.nm.body)
    (hchain : LinuxChain E.bitsPerAddress last ((s :: run).map (·.1.nm.body)) addrs) :
    List.Forall₂ (fun s a => Rebuilt c a.1 a.2 s.2) (s :: run) addrs
      ↔ ∀ a ∈ addrs, InLowerHalf E.bitsPerAddress a := by
  have hpos : 0 < E.bitsPerAddress := by omega
  refine forall₂_rebuilt_iff hpos hn' hchain ?_
  cases hchain with
  | cons hbody hnext _ hchain =>
    obtain ⟨hrebuilt, hrest⟩ := hrun.step hpos hn' hnext hbody (.inl hfirst)
    exact .cons hrebuilt (hrest.rebuilt hpos hn' hchain hnext)

end

def sv39Env : Env :=
  { Env.bareMetal false Program.empty with linuxTrace := true, bitsPerAddress := 39 }

def linuxDecoder (body : MessageBody) : Decoder sv39Env :=
  { (Trace.init sv39Env .htm (SliceFileParser.init 0 []) none).toDecoder with
    nm := { NexusMessage.init with body := body } }

def kernelSync : MessageBody := .sync 5 0 (lowBits 39 0xffffffff80001000 >>> 1)

def userSync : MessageBody := .sync 5 0 (lowBits 39 0x1000 >>> 1)

def processed (body : MessageBody) : Decoder sv39Env × Decoder sv39Env :=
  (linuxDecoder body, (processTraceMessage (linuxDecoder body)).state)

theorem linuxProcessed_single {body : MessageBody}
    (hext : TraceM.signExtendBody 39 body = some body)
    (hok : (processTraceMessage (linuxDecoder body)).isOk = true) :
    LinuxProcessed 0 0 [processed body] := by
  have hsame : { linuxDecoder body with nm.body := body } = linuxDecoder body := rfl
  have hstep := Result.eq_ok hok
  rw [← hsame] at hstep
  exact .cons rfl rfl rfl hext hstep .nil

/-- A branch from `0x1000` to `0x20004` as it is sent. -/
def userBranch : MessageBody := .indirectBranch 3 0 (lowBits 39 (0x1000 ^^^ 0x20004) >>> 1)

def processedNext (d : Decoder sv39Env) (body : MessageBody) : Decoder sv39Env × Decoder sv39Env :=
  let d' := { d with nm := { NexusMessage.init with body := body } }
  (d', (processTraceMessage d').state)

theorem linuxTrace_rebuilt_userBranch :
    let run := [processed userSync, processedNext (processed userSync).2 userBranch]
    let addrs : List (ADDRESS × Option ADDRESS) := [(0x1000, some 0x1000), (0x20004, some 0x20004)]
    List.Forall₂ (fun s a => Rebuilt 0 a.1 a.2 s.2) run addrs ↔ ∀ a ∈ addrs, InLowerHalf 39 a := by
  intro run addrs
  have hsync : TraceM.signExtendBody 39 userSync = some userSync := by decide
  have hbranch : TraceM.signExtendBody 39 userBranch = some userBranch := by decide
  have hrun : LinuxProcessed 0 0 run := by
    refine .cons rfl rfl rfl hsync (Result.eq_ok (by decide +kernel)) ?_
    refine .cons (by decide +kernel) rfl rfl hbranch (Result.eq_ok (by decide +kernel)) .nil
  have hchain : LinuxChain 39 0 [userSync, userBranch] addrs :=
    .cons ⟨rfl, rfl⟩ (by decide) False.elim (.cons ⟨rfl, rfl⟩ (by decide) (fun _ => by decide) .nil)
  exact linuxTrace_rebuilt (by decide) (by decide) hrun trivial hchain

/-- The kernel address has lost its upper bits. -/
theorem not_rebuilt_kernelSync :
    LinuxProcessed 0 0 [processed kernelSync] ∧
      LinuxChain 39 0 [kernelSync] [(0xffffffff80001000, some 0xffffffff80001000)] ∧
      ¬ List.Forall₂ (fun s a => Rebuilt 0 a.1 a.2 s.2) [processed kernelSync]
        [(0xffffffff80001000, some 0xffffffff80001000)] := by
  refine ⟨linuxProcessed_single (by decide) (by decide +kernel), .cons ⟨rfl, rfl⟩ (by decide)
    False.elim .nil, fun h => ?_⟩
  cases h with
  | cons hrebuilt _ => exact absurd hrebuilt.faddr (by decide +kernel)

end TraceDecoder
