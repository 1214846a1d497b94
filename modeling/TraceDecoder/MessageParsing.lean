import TraceDecoder.Framing
import TraceDecoder.Lib.Program

/-!
# A message is parsed on its own

What a parse function returns depends on the slices of the message only. What it leaves behind in
the parser is the bit index, the end-of-message flag and, when it fails, the status.
-/

namespace TraceDecoder

open SliceFileParser EStateM

theorem parseMessage_ok {fields : ParseM (MessageBody × ℕ × ℕ)} {s s₁ s₂ s₃ : SliceFileParser}
    {coreId : BitVec 8}
    {body : MessageBody} {bits addr_bits ts_bits : ℕ} {timestamp : Option TIMESTAMP}
    (hsrc : parseSrc s = .ok coreId s₁) (hfields : fields s₁ = .ok (body, bits, addr_bits) s₂)
    (hts : parseTimestamp s₂ = .ok (timestamp, ts_bits) s₃) :
    parseMessage fields s =
      .ok ⟨coreId, timestamp, body, 6 + s.srcbits + bits + ts_bits, ts_bits, addr_bits⟩ s₃ := by
  have hget : parseMessage fields s = (do
      let coreId ← parseSrc
      let read ← fields
      let ts ← parseTimestamp
      return ⟨coreId, ts.1, read.1, 6 + s.srcbits + read.2.1 + ts.2, ts.2, read.2.2⟩ : ParseM
        ParsedMsg) s := rfl
  rw [hget, bind_ok hsrc, bind_ok hfields]
  exact bind_ok hts

structure SameMessage (s t : SliceFileParser) : Prop where
  srcbits : s.srcbits = t.srcbits
  msg : s.msg = t.msg
  msgSlices : s.msgSlices = t.msgSlices

/-- `s` and `t` have come from `s₀` and `t₀` to one place in the message. -/
def ReadsAlike (s₀ t₀ s t : SliceFileParser) : Prop :=
  ∃ bitIndex eom, s = { s₀ with bitIndex := bitIndex, eom := eom } ∧
    t = { t₀ with bitIndex := bitIndex, eom := eom }

/-- Both have failed; the error kept in `status` is never the end of the file. -/
def FailedAlike (s₀ t₀ s t : SliceFileParser) : Prop :=
  ∃ bitIndex eom rc, rc ≠ .ok ∧ rc ≠ .eof ∧
    s = { s₀ with bitIndex := bitIndex, eom := eom, status := rc } ∧
    t = { t₀ with bitIndex := bitIndex, eom := eom, status := rc }

/-- The program reads nothing but the message, and what it returns has `post`. -/
def ReadsMessage {α : Type} (p : ParseM α) (post : α → Prop) : Prop :=
  ∀ s₀ t₀, SameMessage s₀ t₀ → Coupled (ReadsAlike s₀ t₀) p p
    (fun a b s t => a = b ∧ post a ∧ ReadsAlike s₀ t₀ s t) (FailedAlike s₀ t₀)

namespace ReadsMessage

variable {α β : Type} {post : α → Prop}

theorem pure {a : α} (h : post a) : ReadsMessage (pure a : ParseM α) post :=
  fun _ _ _ => Coupled.pure fun _ _ hst => ⟨rfl, h, hst⟩

theorem bind {p : ParseM α} {f : α → ParseM β} {mid : α → Prop} {post : β → Prop}
    (hp : ReadsMessage p mid) (hf : ∀ a, mid a → ReadsMessage (f a) post) :
    ReadsMessage (p >>= f) post := by
  intro s₀ t₀ hsame
  refine (hp s₀ t₀ hsame).bind fun a b s t ⟨hab, ha, hst⟩ => ?_
  subst hab
  exact hf a ha s₀ t₀ hsame s t hst

theorem fail {rc : DQErr} (hok : rc ≠ .ok) (heof : rc ≠ .eof) :
    ReadsMessage (fail rc : ParseM α) post := by
  rintro s₀ t₀ _ s t ⟨bitIndex, eom, rfl, rfl⟩
  exact ⟨rfl, bitIndex, eom, rc, hok, heof, rfl, rfl⟩

/-- Of the parser's other members a parse function asks only for those that go with the message. -/
theorem get_bind {f : SliceFileParser → ParseM α}
    (hsame : ∀ s t, SameMessage s t → s.eom = t.eom → f s = f t)
    (hf : ∀ s, ReadsMessage (f s) post) :
    ReadsMessage (get >>= f) post := by
  intro s₀ t₀ h s t hst
  have hrun := hf s s₀ t₀ h s t hst
  obtain ⟨bitIndex, eom, hs, ht⟩ := hst
  have heq : f s = f t := by
    refine hsame s t ?_ ?_ <;> subst hs ht
    · exact ⟨h.srcbits, h.msg, h.msgSlices⟩
    · rfl
  have hgets : ∀ s, (get >>= f : ParseM α) s = f s s := fun _ => rfl
  rw [hgets, hgets, ← heq]
  exact hrun

theorem parseFixedField_reads (width : ℕ) : ReadsMessage (parseFixedField width) fun _ => True := by
  rintro s₀ ⟨⟩ ⟨rfl, rfl, rfl⟩ s t ⟨bitIndex, eom, rfl, rfl⟩
  simp only [parseFixedField]
  by_cases hwidth : width = 0
  · simp only [hwidth, if_true]
    exact ⟨rfl, bitIndex, eom, .err, by decide, by decide, rfl, rfl⟩
  · simp only [hwidth, if_false]
    by_cases hend : s₀.msgSlices * 6 ≤ bitIndex + width
    · simp only [hend, if_true]
      exact ⟨rfl, bitIndex + width, eom, .eom, by decide, by decide, rfl, rfl⟩
    · simp only [hend, if_false]
      exact ⟨trivial, trivial, _, _, rfl, rfl⟩

theorem parseVarField_reads : ReadsMessage parseVarField fun _ => True := by
  rintro s₀ ⟨⟩ ⟨rfl, rfl, rfl⟩ s t ⟨bitIndex, eom, rfl, rfl⟩
  simp only [parseVarField]
  by_cases hend : s₀.msgSlices ≤ bitIndex / 6
  · simp only [hend, if_true]
    exact ⟨rfl, bitIndex, eom, .eom, by decide, by decide, rfl, rfl⟩
  · simp only [hend, if_false]
    cases varSlices s₀.msg (s₀.msgSlices - 1 - bitIndex / 6) (bitIndex / 6) (6 - bitIndex % 6)
        ((slice s₀.msg (bitIndex / 6) >>> (bitIndex % 6 + 2)).setWidth 64) with
    | none => exact ⟨rfl, bitIndex, eom, .err, by decide, by decide, rfl, rfl⟩
    | some field =>
      obtain ⟨i, w, v⟩ := field
      by_cases hover : 64 < w ∧ slice s₀.msg i &&& 0xc0 ≠ 0
      · simp only [hover, ne_eq, not_false_eq_true, and_self, if_true]
        exact ⟨rfl, bitIndex, eom, .err, by decide, by decide, rfl, rfl⟩
      · simp only [hover, if_false]
        exact ⟨trivial, trivial, _, _, rfl, rfl⟩

theorem fixed (width : ℕ) {f : BitVec 64 → ParseM α} (hf : ∀ v, ReadsMessage (f v) post) :
    ReadsMessage (parseFixedField width >>= f) post :=
  (parseFixedField_reads width).bind fun v _ => hf v

theorem var {f : BitVec 64 × ℕ → ParseM α} (hf : ∀ field, ReadsMessage (f field) post) :
    ReadsMessage (parseVarField >>= f) post := parseVarField_reads.bind fun field _ => hf field

theorem src : ReadsMessage parseSrc fun _ => True := by
  refine get_bind (fun s t h _ => by simp only [h.srcbits]) fun s => ?_
  by_cases h0 : 0 < s.srcbits
  · simp only [h0, if_true]
    exact fixed _ fun _ => pure trivial
  · simp only [h0, if_false]
    exact pure trivial

theorem timestamp : ReadsMessage parseTimestamp fun _ => True := by
  refine get_bind (fun s t _ heom => by simp only [heom]) fun s => ?_
  by_cases heom : s.eom = true
  · simp only [heom, if_true]
    exact pure trivial
  · simp only [heom]
    refine var fun field => get_bind (fun s t _ heom => by simp only [heom]) fun s => ?_
    by_cases hend : s.eom = true
    · simp only [hend, if_true]
      exact pure trivial
    · simp only [hend]
      exact fail (by decide) (by decide)

theorem message {fields : ParseM (MessageBody × ℕ × ℕ)} {known : MessageBody → Prop}
    (hfields : ReadsMessage fields fun r => known r.1) :
    ReadsMessage (parseMessage fields) fun m => known m.body := by
  refine get_bind (fun s t h _ => by simp only [h.srcbits]) fun s => ?_
  exact src.bind fun _ _ => hfields.bind fun _ hbody => timestamp.bind fun _ _ => pure hbody

end ReadsMessage

/-! ### The parse functions -/

open ReadsMessage

def KnownBody (tcode : TCode) (body : MessageBody) : Prop :=
  unknownBody body = false ∧ body.tcode = tcode

theorem parseICTFields_readsMessage {tcode : TCode} {make : ICT → MessageBody}
    (h : ∀ m, KnownBody tcode (make m)) :
    ReadsMessage (parseICTFields make) fun r => KnownBody tcode r.1 := by
  refine fixed 4 fun cksrc => fixed 2 fun ckdf => ?_
  by_cases hckdf : 1 < ckdf.toNat
  · simp only [hckdf, if_true]
    exact fail (by decide) (by decide)
  · simp only [hckdf, if_false]
    refine var fun _ => ?_
    by_cases h0 : ckdf = 0
    · simp only [h0, if_true]
      exact pure (h _)
    · simp only [h0, if_false]
      exact var fun _ => pure (h _)

theorem parseResourceFull_readsMessage :
    ReadsMessage parseResourceFull fun m => KnownBody .resourceFull m.body := by
  refine message (fixed 4 fun rCode => var fun field => ?_)
  have hknown : ∀ r, rdata rCode field.1 = some r → KnownBody .resourceFull (.resourceFull r) := by
    intro r hr
    unfold rdata at hr
    split_ifs at hr <;> obtain rfl := Option.some.inj hr <;> exact ⟨rfl, rfl⟩
  cases hr : rdata rCode field.1 with
  | none => simp only [hr]; exact fail (by decide) (by decide)
  | some r => simp only [hr]; exact pure (hknown r hr)

theorem parseCorrelation_readsMessage :
    ReadsMessage parseCorrelation fun m => KnownBody .correlation m.body := by
  refine message (fixed 4 fun _ => fixed 2 fun cdf => var fun _ => ?_)
  by_cases h0 : cdf = 0
  · simp only [h0, if_true]
    exact pure ⟨rfl, rfl⟩
  · by_cases h1 : cdf = 1
    · simp only [h1, if_true]
      exact var fun _ => pure ⟨rfl, rfl⟩
    · simp only [h0, h1, if_false]
      exact fail (by decide) (by decide)

theorem parserOf_readsMessage {tcode : TCode} {parse : ParseM ParsedMsg}
    (h : parserOf tcode = some parse) : ReadsMessage parse fun m => KnownBody tcode m.body := by
  cases tcode <;> cases h
  case ownershipTrace => exact message (var fun _ => pure ⟨rfl, rfl⟩)
  case directBranch => exact message (var fun _ => pure ⟨rfl, rfl⟩)
  case indirectBranch =>
    exact message (fixed 2 fun _ => var fun _ => var fun _ => pure ⟨rfl, rfl⟩)
  case dataAcquisition => exact message (var fun _ => var fun _ => pure ⟨rfl, rfl⟩)
  case error => exact message (fixed 4 fun _ => var fun _ => pure ⟨rfl, rfl⟩)
  case sync =>
    exact message (fixed 4 fun _ => var fun _ => var fun _ => pure ⟨rfl, rfl⟩)
  case directBranchWS =>
    exact message (fixed 4 fun _ => var fun _ => var fun _ => pure ⟨rfl, rfl⟩)
  case indirectBranchWS =>
    exact message (fixed 4 fun _ => fixed 2 fun _ => var fun _ => var fun _ => pure ⟨rfl, rfl⟩)
  case auxAccessWrite => exact message (var fun _ => var fun _ => pure ⟨rfl, rfl⟩)
  case resourceFull => exact parseResourceFull_readsMessage
  case indirectBranchHistory =>
    exact message (fixed 2 fun _ => var fun _ => var fun _ => var fun _ => pure ⟨rfl, rfl⟩)
  case indirectBranchHistoryWS =>
    exact message (fixed 4 fun _ => fixed 2 fun _ => var fun _ => var fun _ => var fun _ =>
      pure ⟨rfl, rfl⟩)
  case correlation => exact parseCorrelation_readsMessage
  case inCircuitTrace => exact message (parseICTFields_readsMessage fun _ => ⟨rfl, rfl⟩)
  case inCircuitTraceWS => exact message (parseICTFields_readsMessage fun _ => ⟨rfl, rfl⟩)

end TraceDecoder
