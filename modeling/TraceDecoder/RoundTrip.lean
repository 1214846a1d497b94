import TraceDecoder.MessageLayout

/-!
# Messages survive the wire

An encoder that has its choice of widths: the fields it lays out of a message say that message.
-/

namespace TraceDecoder

/-- What the format leaves to the encoder: the bits spent on each variable field, in order, those
spent on the timestamp, and the padding of an error message. -/
structure WireChoices where
  bits : ℕ → ℕ
  tsBits : ℕ
  padding : ℕ

/-- `i_cnt` is sent as an unsigned number; every field of a message fits its place and what the
message does not carry is zero. -/
def Encodable : MessageBody → Prop
  | .directBranch i_cnt | .indirectBranch _ i_cnt _ | .directBranchWS _ i_cnt _
  | .indirectBranchWS _ _ i_cnt _ | .indirectHistory _ i_cnt _ _ | .indirectHistoryWS _ _ i_cnt _ _
  | .sync _ i_cnt _ => 0 ≤ i_cnt ∧ i_cnt < 2 ^ 31
  | .resourceFull (.i_cnt n) => 0 ≤ n ∧ n < 2 ^ 31
  | .resourceFull (.other _) => False
  | .resourceFull _ => True
  | .correlation _ cdf i_cnt history =>
    (0 ≤ i_cnt ∧ i_cnt < 2 ^ 31) ∧ (cdf = 0 ∧ history = 0 ∨ cdf = 1)
  | .ownership pid _ _ _ => -2 ^ 31 ≤ pid ∧ pid < 2 ^ 31
  | .ict m | .ictWS m => m.ckdf = 0 ∧ m.ckdata1 = 0 ∨ m.ckdf = 1
  | .error _ | .auxAccessWrite .. | .dataAcquisition .. => True
  | .other _ => False

def rdataValue : ResourceFull → ℕ
  | .i_cnt n => n.toNat
  | .history h => h.toNat
  | .notTakenCount n | .takenCount n => n.toNat
  | .other _ => 0

/-- The process id field of an ownership message, with the tag in its low bits. -/
def ownershipValue (pid : ℤ) (v : BitVec 1) (prv tag : BitVec 2) : ℕ :=
  (BitVec.ofInt 32 pid).toNat * 32 + v.toNat * 16 + prv.toNat * 4 + tag.toNat

def ictFields (c : WireChoices) (m : ICT) : List WireField :=
  .fixed 4 m.cksrc.toNat :: .fixed 2 m.ckdf.toNat :: .var (c.bits 0) m.ckdata0.toNat ::
    if m.ckdf = 0 then [] else [.var (c.bits 1) m.ckdata1.toNat]

def bodyFields (c : WireChoices) : MessageBody → List WireField
  | .directBranch i_cnt => [.var (c.bits 0) i_cnt.toNat]
  | .indirectBranch b_type i_cnt u_addr =>
    [.fixed 2 b_type.toNat, .var (c.bits 0) i_cnt.toNat, .var (c.bits 1) u_addr.toNat]
  | .directBranchWS sync i_cnt f_addr =>
    [.fixed 4 sync.toNat, .var (c.bits 0) i_cnt.toNat, .var (c.bits 1) f_addr.toNat]
  | .indirectBranchWS sync b_type i_cnt f_addr =>
    [.fixed 4 sync.toNat, .fixed 2 b_type.toNat, .var (c.bits 0) i_cnt.toNat,
      .var (c.bits 1) f_addr.toNat]
  | .indirectHistory b_type i_cnt u_addr history =>
    [.fixed 2 b_type.toNat, .var (c.bits 0) i_cnt.toNat, .var (c.bits 1) u_addr.toNat,
      .var (c.bits 2) history.toNat]
  | .indirectHistoryWS sync b_type i_cnt f_addr history =>
    [.fixed 4 sync.toNat, .fixed 2 b_type.toNat, .var (c.bits 0) i_cnt.toNat,
      .var (c.bits 1) f_addr.toNat, .var (c.bits 2) history.toNat]
  | .resourceFull r => [.fixed 4 r.rCode.toNat, .var (c.bits 0) (rdataValue r)]
  | .sync sync i_cnt f_addr =>
    [.fixed 4 sync.toNat, .var (c.bits 0) i_cnt.toNat, .var (c.bits 1) f_addr.toNat]
  | .error etype => [.fixed 4 etype.toNat, .var (c.bits 0) c.padding]
  | .correlation evcode cdf i_cnt history =>
    .fixed 4 evcode.toNat :: .fixed 2 cdf.toNat :: .var (c.bits 0) i_cnt.toNat ::
      if cdf = 0 then [] else [.var (c.bits 1) history.toNat]
  | .auxAccessWrite addr data => [.var (c.bits 0) addr.toNat, .var (c.bits 1) data.toNat]
  | .dataAcquisition idTag data => [.var (c.bits 0) idTag.toNat, .var (c.bits 1) data.toNat]
  | .ownership pid v prv tag => [.var (c.bits 0) (ownershipValue pid v prv tag)]
  | .ict m | .ictWS m => ictFields c m
  | .other _ => []

def srcFields (srcbits : ℕ) (coreId : BitVec 8) : List WireField :=
  if 0 < srcbits then [.fixed srcbits coreId.toNat] else []

def tsFields (c : WireChoices) : Option TIMESTAMP → List WireField
  | none => []
  | some ts => [.var c.tsBits ts.toNat]

def messageFields (srcbits : ℕ) (c : WireChoices) (coreId : BitVec 8) (body : MessageBody)
    (timestamp : Option TIMESTAMP) : List WireField :=
  .fixed 6 body.tcode.toNat :: (srcFields srcbits coreId ++
    (bodyFields c body ++ tsFields c timestamp))

/-! ### Field values -/

theorem int32_toNat {n : ℤ} (h : 0 ≤ n ∧ n < 2 ^ 31) : int32 n.toNat = n := by
  rw [int32, BitVec.toInt_ofNat', Int.bmod]
  omega

theorem ofNat_toNat_self {k : ℕ} (x : BitVec k) : BitVec.ofNat k x.toNat = x := by
  rw [BitVec.ofNat_toNat, BitVec.setWidth_eq]

theorem ownershipValue_fields {pid : ℤ} (v : BitVec 1) (prv tag : BitVec 2)
    (h : -2 ^ 31 ≤ pid ∧ pid < 2 ^ 31) :
    let n := ownershipValue pid v prv tag
    int32 (n / 2 ^ 5) = pid ∧ BitVec.ofNat 1 (n / 2 ^ 4) = v ∧ BitVec.ofNat 2 (n / 2 ^ 2) = prv ∧
      BitVec.ofNat 2 n = tag := by
  have hpid := (BitVec.ofInt 32 pid).isLt
  have hv := v.isLt
  have hprv := prv.isLt
  have htag := tag.isLt
  intro n
  have hn : n = (BitVec.ofInt 32 pid).toNat * 32 + v.toNat * 16 + prv.toNat * 4 + tag.toNat := rfl
  refine ⟨?_, ?_, ?_, ?_⟩
  · have hhigh : n / 2 ^ 5 = (BitVec.ofInt 32 pid).toNat := by omega
    rw [int32, hhigh, ofNat_toNat_self, BitVec.toInt_ofInt, Int.bmod]
    omega
  all_goals
    apply BitVec.eq_of_toNat_eq
    rw [BitVec.toNat_ofNat]
    omega

/-! ### What the fields say -/

theorem layout_ictFields (c : WireChoices) {m : ICT} (h : m.ckdf = 0 ∧ m.ckdata1 = 0 ∨ m.ckdf = 1) :
    ICTLayout (ictFields c m) m := by
  obtain ⟨cksrc, ckdf, ckdata0, ckdata1⟩ := m
  obtain ⟨rfl, rfl⟩ | rfl := h
  · have hone := ICTLayout.one cksrc.toNat (c.bits 0) ckdata0.toNat
    rwa [ofNat_toNat_self, ofNat_toNat_self] at hone
  · have htwo := ICTLayout.two cksrc.toNat (c.bits 0) ckdata0.toNat (c.bits 1) ckdata1.toNat
    rwa [ofNat_toNat_self, ofNat_toNat_self, ofNat_toNat_self] at htwo

theorem layout_resourceFull (c : WireChoices) {r : ResourceFull} (h : Encodable (.resourceFull r)) :
    Layout (bodyFields c (.resourceFull r)) (.resourceFull r) := by
  cases r with
  | i_cnt n =>
    have hcount := Layout.fullCount (c.bits 0) n.toNat
    rwa [int32_toNat h] at hcount
  | history bits =>
    have hhistory := Layout.fullHistory (c.bits 0) bits.toNat
    rwa [ofNat_toNat_self] at hhistory
  | notTakenCount n =>
    have hcount := Layout.fullNotTaken (c.bits 0) n.toNat
    rwa [ofNat_toNat_self] at hcount
  | takenCount n =>
    have hcount := Layout.fullTaken (c.bits 0) n.toNat
    rwa [ofNat_toNat_self] at hcount
  | other => exact absurd h id

theorem layout_bodyFields (c : WireChoices) {body : MessageBody} (h : Encodable body) :
    Layout (bodyFields c body) body := by
  cases body with
  | directBranch i_cnt =>
    have hfields := Layout.directBranch (c.bits 0) i_cnt.toNat
    rwa [int32_toNat h] at hfields
  | indirectBranch b_type i_cnt u_addr =>
    have hfields :=
      Layout.indirectBranch b_type.toNat (c.bits 0) i_cnt.toNat (c.bits 1) u_addr.toNat
    rwa [int32_toNat h, ofNat_toNat_self, ofNat_toNat_self] at hfields
  | directBranchWS sync i_cnt f_addr =>
    have hfields := Layout.directBranchWS sync.toNat (c.bits 0) i_cnt.toNat (c.bits 1) f_addr.toNat
    rwa [int32_toNat h, ofNat_toNat_self, ofNat_toNat_self] at hfields
  | indirectBranchWS sync b_type i_cnt f_addr =>
    have hfields :=
      Layout.indirectBranchWS sync.toNat b_type.toNat (c.bits 0) i_cnt.toNat (c.bits 1) f_addr.toNat
    rwa [int32_toNat h, ofNat_toNat_self, ofNat_toNat_self, ofNat_toNat_self] at hfields
  | indirectHistory b_type i_cnt u_addr history =>
    have hfields :=
      Layout.indirectHistory b_type.toNat (c.bits 0) i_cnt.toNat (c.bits 1) u_addr.toNat (c.bits 2)
        history.toNat
    rwa [int32_toNat h, ofNat_toNat_self, ofNat_toNat_self, ofNat_toNat_self] at hfields
  | indirectHistoryWS sync b_type i_cnt f_addr history =>
    have hfields := Layout.indirectHistoryWS sync.toNat b_type.toNat (c.bits 0) i_cnt.toNat
      (c.bits 1) f_addr.toNat (c.bits 2) history.toNat
    rwa [int32_toNat h, ofNat_toNat_self, ofNat_toNat_self, ofNat_toNat_self,
      ofNat_toNat_self] at hfields
  | resourceFull r => exact layout_resourceFull c h
  | sync sync i_cnt f_addr =>
    have hfields := Layout.sync sync.toNat (c.bits 0) i_cnt.toNat (c.bits 1) f_addr.toNat
    rwa [int32_toNat h, ofNat_toNat_self, ofNat_toNat_self] at hfields
  | error etype =>
    have hfields := Layout.error etype.toNat (c.bits 0) c.padding
    rwa [ofNat_toNat_self] at hfields
  | correlation evcode cdf i_cnt history =>
    obtain ⟨hcnt, ⟨rfl, rfl⟩ | rfl⟩ := h
    · have hfields := Layout.correlation evcode.toNat (c.bits 0) i_cnt.toNat
      rwa [int32_toNat hcnt, ofNat_toNat_self] at hfields
    · have hfields :=
        Layout.correlationHistory evcode.toNat (c.bits 0) i_cnt.toNat (c.bits 1) history.toNat
      rwa [int32_toNat hcnt, ofNat_toNat_self, ofNat_toNat_self] at hfields
  | auxAccessWrite addr data =>
    have hfields := Layout.auxAccessWrite (c.bits 0) addr.toNat (c.bits 1) data.toNat
    rwa [ofNat_toNat_self, ofNat_toNat_self] at hfields
  | dataAcquisition idTag data =>
    have hfields := Layout.dataAcquisition (c.bits 0) idTag.toNat (c.bits 1) data.toNat
    rwa [ofNat_toNat_self, ofNat_toNat_self] at hfields
  | ownership pid v prv tag =>
    have hfields := Layout.ownership (c.bits 0) (ownershipValue pid v prv tag)
    obtain ⟨hpid, hv, hprv, htag⟩ := ownershipValue_fields v prv tag h
    rwa [hpid, hv, hprv, htag] at hfields
  | ict m => exact .ict (layout_ictFields c h)
  | ictWS m => exact .ictWS (layout_ictFields c h)
  | other t => exact absurd h id

theorem messageFields_layout {srcbits : ℕ} (c : WireChoices) {coreId : BitVec 8}
    (hcore : coreId.toNat < 2 ^ srcbits)
    {body : MessageBody} (hbody : Encodable body) (timestamp : Option TIMESTAMP) :
    MessageFields srcbits (messageFields srcbits c coreId body timestamp)
      ⟨coreId, timestamp, body⟩ := by
  have hsrc : srcbits = 0 → coreId.toNat = 0 := by
    rintro rfl
    exact Nat.lt_one_iff.mp hcore
  have hfields := MessageFields.mk coreId.toNat (timestamp.map fun t => (c.tsBits, t.toNat))
    (layout_bodyFields c hbody) hsrc
  rw [ofNat_toNat_self] at hfields
  cases timestamp with
  | none => exact hfields
  | some t =>
    rw [Option.map_some, Option.map_some, ofNat_toNat_self] at hfields
    exact hfields

end TraceDecoder
