import TraceDecoder.WireFormat

/-!
# How messages are laid out

Each kind of message has its fields: the message code, the source when there is more than one core,
the fields of the kind and, maybe, a timestamp. Laid out in any widths they are a well-formed
message, which `parseTraceMsg` reads unless one of its fields is refused.
-/

namespace TraceDecoder

open BitStream SliceFileParser

structure Content where
  coreId : BitVec 8
  timestamp : Option TIMESTAMP
  body : MessageBody
  deriving DecidableEq, Repr

/-- What an `int` keeps of a number. -/
def int32 (n : ℕ) : ℤ := (BitVec.ofNat 32 n).toInt

/-- With a `ckdf` of 1 there is a second data field. -/
inductive ICTLayout : List WireField → ICT → Prop
  | one (cksrc w₀ d₀ : ℕ) :
    ICTLayout [.fixed 4 cksrc, .fixed 2 0, .var w₀ d₀] ⟨.ofNat 4 cksrc, 0, .ofNat 64 d₀, 0⟩
  | two (cksrc w₀ d₀ w₁ d₁ : ℕ) : ICTLayout [.fixed 4 cksrc, .fixed 2 1, .var w₀ d₀, .var w₁ d₁]
      ⟨.ofNat 4 cksrc, 1, .ofNat 64 d₀, .ofNat 64 d₁⟩

/-- The fields of each kind of message, and the body that keeps their values. -/
inductive Layout : List WireField → MessageBody → Prop
  | directBranch (w n : ℕ) : Layout [.var w n] (.directBranch (int32 n))
  | indirectBranch (b_type w n w₁ a : ℕ) : Layout [.fixed 2 b_type, .var w n, .var w₁ a]
      (.indirectBranch (.ofNat 2 b_type) (int32 n) (.ofNat 64 a))
  | directBranchWS (sync w n w₁ a : ℕ) : Layout [.fixed 4 sync, .var w n, .var w₁ a]
      (.directBranchWS (.ofNat 4 sync) (int32 n) (.ofNat 64 a))
  | indirectBranchWS (sync b_type w n w₁ a : ℕ) :
      Layout [.fixed 4 sync, .fixed 2 b_type, .var w n, .var w₁ a]
        (.indirectBranchWS (.ofNat 4 sync) (.ofNat 2 b_type) (int32 n) (.ofNat 64 a))
  | indirectHistory (b_type w n w₁ a w₂ h : ℕ) :
      Layout [.fixed 2 b_type, .var w n, .var w₁ a, .var w₂ h]
        (.indirectHistory (.ofNat 2 b_type) (int32 n) (.ofNat 64 a) (.ofNat 64 h))
  | indirectHistoryWS (sync b_type w n w₁ a w₂ h : ℕ) :
      Layout [.fixed 4 sync, .fixed 2 b_type, .var w n, .var w₁ a, .var w₂ h]
        (.indirectHistoryWS (.ofNat 4 sync) (.ofNat 2 b_type) (int32 n) (.ofNat 64 a) (.ofNat 64 h))
  | fullCount (w n : ℕ) : Layout [.fixed 4 0, .var w n] (.resourceFull (.i_cnt (int32 n)))
  | fullHistory (w h : ℕ) : Layout [.fixed 4 1, .var w h] (.resourceFull (.history (.ofNat 64 h)))
  | fullNotTaken (w n : ℕ) :
    Layout [.fixed 4 8, .var w n] (.resourceFull (.notTakenCount (.ofNat 32 n)))
  | fullTaken (w n : ℕ) : Layout [.fixed 4 9, .var w n] (.resourceFull (.takenCount (.ofNat 32 n)))
  | sync (sync w n w₁ a : ℕ) : Layout [.fixed 4 sync, .var w n, .var w₁ a]
      (.sync (.ofNat 4 sync) (int32 n) (.ofNat 64 a))
  | error (etype w padding : ℕ) : Layout [.fixed 4 etype, .var w padding] (.error (.ofNat 4 etype))
  | correlation (evcode w n : ℕ) : Layout [.fixed 4 evcode, .fixed 2 0, .var w n]
      (.correlation (.ofNat 4 evcode) 0 (int32 n) 0)
  | correlationHistory (evcode w n w₁ h : ℕ) :
      Layout [.fixed 4 evcode, .fixed 2 1, .var w n, .var w₁ h] (.correlation (.ofNat 4 evcode) 1
        (int32 n) (.ofNat 64 h))
  | auxAccessWrite (w a w₁ d : ℕ) : Layout [.var w a, .var w₁ d] (.auxAccessWrite (.ofNat 32 a)
    (.ofNat 32 d))
  | dataAcquisition (w t w₁ d : ℕ) : Layout [.var w t, .var w₁ d] (.dataAcquisition (.ofNat 32 t)
    (.ofNat 32 d))
  | ownership (w n : ℕ) : Layout [.var w n]
      (.ownership (int32 (n / 2 ^ 5)) (.ofNat 1 (n / 2 ^ 4)) (.ofNat 2 (n / 2 ^ 2)) (.ofNat 2 n))
  | ict {fs : List WireField} {m : ICT} (h : ICTLayout fs m) : Layout fs (.ict m)
  | ictWS {fs : List WireField} {m : ICT} (h : ICTLayout fs m) : Layout fs (.ictWS m)

def sourceFields (srcbits src : ℕ) : List WireField :=
  if 0 < srcbits then [.fixed srcbits src] else []

def timestampFields : Option (ℕ × ℕ) → List WireField
  | none => []
  | some (w, t) => [.var w t]

inductive MessageFields (srcbits : ℕ) : List WireField → Content → Prop
  | mk {fs : List WireField} {body : MessageBody} (src : ℕ) (ts : Option (ℕ × ℕ))
    (hbody : Layout fs body)
      (hsrc : srcbits = 0 → src = 0) :
      MessageFields srcbits
        (.fixed 6 body.tcode.toNat :: (sourceFields srcbits src ++ (fs ++ timestampFields ts)))
        ⟨.ofNat 8 src, ts.map fun t => .ofNat 64 t.2, body⟩

/-- The message is its fields, laid out in any widths and with no marks but those at their ends. -/
def WellFormed (srcbits : ℕ) (msg : List Byte) : Prop :=
  ∃ fs c, MessageFields srcbits fs c ∧ Laid 0 fs ∧ encode fs = msg

/-! ### Field values -/

theorem setWidth_ofNat64 {k : ℕ} (hk : k ≤ 64) (n : ℕ) : (BitVec.ofNat 64 n).setWidth k =
    BitVec.ofNat k n :=
  BitVec.setWidth_ofNat_of_le hk n

theorem toInt32_ofNat64 (n : ℕ) : toInt32 (BitVec.ofNat 64 n) = int32 n := by
  rw [toInt32, setWidth_ofNat64 (by decide), int32]

theorem setWidth_shift_ofNat64 {n k i : ℕ} (h : i + k ≤ 64) :
    (BitVec.ofNat 64 n >>> i).setWidth k = BitVec.ofNat k (n / 2 ^ i) := by
  apply BitVec.eq_of_getLsbD_eq
  intro j hj
  rw [BitVec.getLsbD_setWidth, BitVec.getLsbD_ushiftRight, BitVec.getLsbD_ofNat,
    BitVec.getLsbD_ofNat, Nat.testBit_div_two_pow, Nat.add_comm j i]
  simp only [hj, show i + j < 64 by omega, decide_true, Bool.true_and]

/-! ### One field after the other -/

section
variable {α : Type} {s₀ : SliceFileParser} {w v : ℕ} {fs rest : List WireField} {a : α}
  {post : SliceFileParser → Prop}

theorem fixed_bind {f : BitVec 64 → ParseM α}
    (h : Decides (Accepted fs) (Reading s₀ (fs ++ rest)) (f (BitVec.ofNat 64 v)) a post) :
    Decides (Accepted (.fixed w v :: fs)) (Reading s₀ (.fixed w v :: fs ++ rest))
      (parseFixedField w >>= f) a post :=
  ((parseFixedField_reads s₀ w v (fs ++ rest)).decides.bind h).congr
    ((and_iff_right trivial).trans accepted_fixed.symm)

theorem var_bind {f : BitVec 64 × ℕ → ParseM α}
    (h : Decides (Accepted fs) (ReadingNext s₀ (fs ++ rest)) (f (BitVec.ofNat 64 v, w)) a post) :
    Decides (Accepted (.var w v :: fs)) (Reading s₀ (.var w v :: fs ++ rest))
      (parseVarField >>= f) a
      post :=
  ((parseVarField_decides s₀ w v (fs ++ rest)).bind h).congr accepted_cons.symm

theorem next_var_bind {f : BitVec 64 × ℕ → ParseM α}
    (h : Decides (Accepted fs) (ReadingNext s₀ (fs ++ rest)) (f (BitVec.ofNat 64 v, w)) a post) :
    Decides (Accepted (.var w v :: fs)) (ReadingNext s₀ (.var w v :: fs ++ rest))
      (parseVarField >>= f) a post :=
  (var_bind h).weaken fun _ => ReadingNext.reading

theorem reading_pure {pre : SliceFileParser → Prop} {a' : α} (h : a' = a) :
    Decides (Accepted []) pre (pure a' : ParseM α) a pre :=
  h ▸ (Decides.pure fun _ hs => hs).congr (iff_of_true trivial accepted_nil)

theorem body_pure {body body' : MessageBody} {bits addr_bits : ℕ} (h : body' = body) :
    Decides (Accepted []) (ReadingNext s₀ ([] ++ rest))
      (pure (body', bits, addr_bits) : ParseM (MessageBody × ℕ × ℕ)) (body, bits, addr_bits)
      (ReadingNext s₀ rest) :=
  reading_pure (by rw [h])

end

theorem parseSrc_decides (s₀ : SliceFileParser) (src : ℕ) (fs : List WireField)
    (hsrc : s₀.srcbits = 0 → src = 0) :
    Decides (Accepted (sourceFields s₀.srcbits src))
      (Reading s₀ (sourceFields s₀.srcbits src ++ fs))
      parseSrc (BitVec.ofNat 8 src) (Reading s₀ fs) := by
  refine Decides.get_bind fun s hs => ?_
  have hsame : s.srcbits = s₀.srcbits := by rw [hs.frame]
  rw [hsame, sourceFields]
  by_cases h0 : 0 < s₀.srcbits
  · rw [if_pos h0, if_pos h0]
    refine fixed_bind ?_
    rw [setWidth_ofNat64 (by decide)]
    exact reading_pure rfl
  · rw [if_neg h0, if_neg h0, hsrc (Nat.eq_zero_of_not_pos h0)]
    exact reading_pure rfl

theorem parseTimestamp_decides (s₀ : SliceFileParser) (ts : Option (ℕ × ℕ)) :
    ∃ ts_bits, Decides (Accepted (timestampFields ts)) (ReadingNext s₀ (timestampFields ts))
      parseTimestamp (ts.map fun t => BitVec.ofNat 64 t.2, ts_bits) (ReadingNext s₀ []) := by
  cases ts with
  | none =>
    refine ⟨0, Decides.get_bind fun s hs => ?_⟩
    rw [hs.2]
    exact reading_pure rfl
  | some t =>
    refine ⟨t.1, Decides.get_bind fun s hs => ?_⟩
    rw [hs.2]
    refine next_var_bind (Decides.get_bind fun s' hs' => ?_)
    rw [hs'.2]
    exact reading_pure rfl

/-- `fields` reads the given fields, unless one is refused, and makes the body of them. -/
def ReadsBody (fields : ParseM (MessageBody × ℕ × ℕ)) (fs : List WireField) (body : MessageBody) :
    Prop :=
  ∃ bits addr_bits, ∀ s₀ rest, Decides (Accepted fs) (Reading s₀ (fs ++ rest)) fields
    (body, bits, addr_bits) (ReadingNext s₀ rest)

theorem parseMessage_decides {fields : ParseM (MessageBody × ℕ × ℕ)} {fs : List WireField}
    {body : MessageBody}
    (hfields : ReadsBody fields fs body) (s₀ : SliceFileParser) {src : ℕ}
    (hsrc : s₀.srcbits = 0 → src = 0) (ts : Option (ℕ × ℕ)) :
    ∃ bits ts_bits addr_bits, Decides
      (Accepted (sourceFields s₀.srcbits src ++ (fs ++ timestampFields ts)))
      (Reading s₀ (sourceFields s₀.srcbits src ++ (fs ++ timestampFields ts)))
      (parseMessage fields)
      ⟨.ofNat 8 src, ts.map fun t => .ofNat 64 t.2, body, bits, ts_bits, addr_bits⟩
        (ReadingNext s₀ []) := by
  obtain ⟨bits, addr_bits, hbody⟩ := hfields
  obtain ⟨ts_bits, hts⟩ := parseTimestamp_decides s₀ ts
  refine ⟨6 + s₀.srcbits + bits + ts_bits, ts_bits, addr_bits, Decides.get_bind fun s hs => ?_⟩
  have hsame : s.srcbits = s₀.srcbits := by rw [hs.frame]
  rw [hsame, accepted_append, accepted_append]
  refine (parseSrc_decides s₀ src _ hsrc).bind ((hbody s₀ _).bind ?_)
  refine Decides.congr (hts.bind ?_) (and_iff_left accepted_nil)
  exact reading_pure rfl

/-! ### The message kinds -/

theorem ICTLayout.reads {fs : List WireField} {m : ICT} (h : ICTLayout fs m)
    (make : ICT → MessageBody) :
    ReadsBody (parseICTFields make) fs (make m) := by
  cases h with
  | one cksrc w₀ d₀ =>
    refine ⟨6 + w₀, w₀, fun s₀ rest => fixed_bind (fixed_bind (var_bind (body_pure ?_)))⟩
    rw [setWidth_ofNat64 (by decide)]
    rfl
  | two cksrc w₀ d₀ w₁ d₁ =>
    refine ⟨6 + w₀ + w₁, w₁, fun s₀ rest => fixed_bind (fixed_bind (var_bind ?_))⟩
    refine next_var_bind (body_pure ?_)
    rw [setWidth_ofNat64 (by decide)]
    rfl

/-- A resource-full message with a code that the switch knows. -/
theorem parseResourceFull_reads {rCode w v : ℕ} {r : ResourceFull}
    (h : rdata (BitVec.ofNat 64 rCode) (BitVec.ofNat 64 v) = some r) :
    ∃ fields, parserOf .resourceFull = some (parseMessage fields) ∧
      ReadsBody fields [.fixed 4 rCode, .var w v] (.resourceFull r) := by
  have hcode : parserOf .resourceFull = some parseResourceFull := rfl
  refine ⟨_, hcode, 4 + w, 0, fun s₀ rest => fixed_bind (var_bind ?_)⟩
  simp only [h]
  exact body_pure rfl

/-- Every kind of message has a parse function, which reads its fields. -/
theorem Layout.reads {fs : List WireField} {body : MessageBody} (h : Layout fs body) :
    ∃ fields, parserOf body.tcode = some (parseMessage fields) ∧ ReadsBody fields fs body := by
  cases h with
  | directBranch w n =>
    refine ⟨_, rfl, _, _, fun s₀ rest => var_bind (body_pure ?_)⟩
    rw [toInt32_ofNat64]
  | indirectBranch b_type w n w₁ a =>
    refine ⟨_, rfl, _, _, fun s₀ rest => fixed_bind (var_bind (next_var_bind (body_pure ?_)))⟩
    rw [toInt32_ofNat64, setWidth_ofNat64 (by decide)]
  | directBranchWS sync w n w₁ a =>
    refine ⟨_, rfl, _, _, fun s₀ rest => fixed_bind (var_bind (next_var_bind (body_pure ?_)))⟩
    rw [toInt32_ofNat64, setWidth_ofNat64 (by decide)]
  | indirectBranchWS sync b_type w n w₁ a =>
    refine ⟨_, rfl, _, _, fun s₀ rest => fixed_bind
      (fixed_bind (var_bind (next_var_bind (body_pure ?_))))⟩
    rw [toInt32_ofNat64, setWidth_ofNat64 (by decide), setWidth_ofNat64 (by decide)]
  | indirectHistory b_type w n w₁ a w₂ hist =>
    refine ⟨_, rfl, _, _, fun s₀ rest =>
      fixed_bind (var_bind (next_var_bind (next_var_bind (body_pure ?_))))⟩
    rw [toInt32_ofNat64, setWidth_ofNat64 (by decide)]
  | indirectHistoryWS sync b_type w n w₁ a w₂ hist =>
    refine ⟨_, rfl, _, _, fun s₀ rest =>
      fixed_bind (fixed_bind (var_bind (next_var_bind (next_var_bind (body_pure ?_)))))⟩
    rw [toInt32_ofNat64, setWidth_ofNat64 (by decide), setWidth_ofNat64 (by decide)]
  | fullCount w n =>
    exact parseResourceFull_reads (congrArg (some ∘ ResourceFull.i_cnt) (toInt32_ofNat64 n))
  | fullHistory w h => exact parseResourceFull_reads rfl
  | fullNotTaken w n =>
    exact parseResourceFull_reads (congrArg (some ∘ ResourceFull.notTakenCount)
      (setWidth_ofNat64 (by decide) n))
  | fullTaken w n =>
    exact parseResourceFull_reads (congrArg (some ∘ ResourceFull.takenCount)
      (setWidth_ofNat64 (by decide) n))
  | sync sync w n w₁ a =>
    refine ⟨_, rfl, _, _, fun s₀ rest => fixed_bind (var_bind (next_var_bind (body_pure ?_)))⟩
    rw [toInt32_ofNat64, setWidth_ofNat64 (by decide)]
  | error etype w padding =>
    refine ⟨_, rfl, _, _, fun s₀ rest => fixed_bind (var_bind (body_pure ?_))⟩
    rw [setWidth_ofNat64 (by decide)]
  | correlation evcode w n =>
    refine ⟨_, rfl, _, _, fun s₀ rest => fixed_bind (fixed_bind (var_bind (body_pure ?_)))⟩
    rw [toInt32_ofNat64, setWidth_ofNat64 (by decide)]
    rfl
  | correlationHistory evcode w n w₁ hist =>
    refine ⟨_, rfl, _, _, fun s₀ rest =>
      fixed_bind (fixed_bind (var_bind (next_var_bind (body_pure ?_))))⟩
    rw [toInt32_ofNat64, setWidth_ofNat64 (by decide)]
    rfl
  | auxAccessWrite w a w₁ d =>
    refine ⟨_, rfl, _, _, fun s₀ rest => var_bind (next_var_bind (body_pure ?_))⟩
    rw [setWidth_ofNat64 (by decide), setWidth_ofNat64 (by decide)]
  | dataAcquisition w t w₁ d =>
    refine ⟨_, rfl, _, _, fun s₀ rest => var_bind (next_var_bind (body_pure ?_))⟩
    rw [setWidth_ofNat64 (by decide), setWidth_ofNat64 (by decide)]
  | ownership w n =>
    refine ⟨_, rfl, _, _, fun s₀ rest => var_bind (body_pure ?_)⟩
    rw [toInt32, setWidth_shift_ofNat64 (by decide), setWidth_shift_ofNat64 (by decide),
      setWidth_shift_ofNat64 (by decide), setWidth_ofNat64 (by decide), int32]
  | ict hm => exact ⟨_, rfl, hm.reads .ict⟩
  | ictWS hm => exact ⟨_, rfl, hm.reads .ictWS⟩

/-- A message is read unless one of its fields is refused. -/
theorem parseTraceMsg_decides (s₀ : SliceFileParser) {fs : List WireField} {c : Content}
    (h : MessageFields s₀.srcbits fs c) :
    ∃ bits ts_bits addr_bits, Decides (Accepted fs) (Reading s₀ fs) parseTraceMsg
      ⟨c.coreId, c.timestamp, c.body, bits, ts_bits, addr_bits⟩ (ReadingNext s₀ []) := by
  obtain @⟨fs, body, src, ts, hbody, hsrc⟩ := h
  obtain ⟨fields, hparser, hfields⟩ := hbody.reads
  obtain ⟨bits, ts_bits, addr_bits, hmsg⟩ := parseMessage_decides hfields s₀ hsrc ts
  have hcode : (BitVec.ofNat 64 body.tcode.toNat).toNat = body.tcode.toNat :=
    Nat.mod_eq_of_lt (body.tcode.toNat_lt.trans (by decide))
  refine ⟨bits, ts_bits, addr_bits, ?_⟩
  refine ((parseFixedField_reads s₀ _ _ _).decides.bind ?_).congr
    ((and_iff_right trivial).trans accepted_fixed.symm)
  rw [hcode, TCode.ofCode_toNat, hparser]
  exact hmsg

end TraceDecoder
