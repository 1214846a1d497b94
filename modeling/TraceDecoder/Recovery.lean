import TraceDecoder.MessageParsing

/-!
# Corrupted messages

A file of framed messages some of which are not well formed. A message with a code that has no parse
function is skipped; any other error stays in `status` and ends the reading of the file.
-/

namespace TraceDecoder

open SliceFileParser EStateM

def atMessage (srcbits : ℕ) (msg : List Byte) : SliceFileParser :=
  { SliceFileParser.init srcbits [] with msg := msg, msgSlices := msg.length }

def contentOf (srcbits : ℕ) (msg : List Byte) : Option Content :=
  match parseTraceMsg (atMessage srcbits msg) with
  | .ok m _ => some ⟨m.coreId, m.timestamp, m.body⟩
  | .error _ _ => none

def codeOf (msg : List Byte) : TCode := TCode.ofCode (insideField msg 0 0 6).toNat

def SliceFileParser.ReadResult.delivered (r : ReadResult) : Option Content :=
  if r.rc = .ok ∧ r.haveMsg = true then
    some ⟨r.nm.coreId, if r.nm.haveTimestamp = true then some r.nm.timestamp else none, r.nm.body⟩
  else none

/-- The results of `n` calls, each made with what the one before it left behind. -/
def readMsgs : ℕ → SliceFileParser → Analytics → NexusMessage → List ReadResult
  | 0, _, _, _ => []
  | n + 1, s, analytics, nm =>
    let r := s.readNextTraceMsg analytics nm
    r :: readMsgs n r.parser r.analytics r.nm

/-- The calls up to the first one that reports the end of the file, and that one. -/
structure ReadsAll (s : SliceFileParser) (analytics : Analytics) (nm : NexusMessage)
    (rs : List ReadResult) (r : ReadResult) : Prop where
  calls : readMsgs (rs.length + 1) s analytics nm = rs ++ [r]
  last : r.rc = .eof
  before : ∀ q ∈ rs, q.rc ≠ .eof

/-- The fields say the content, and all of its values fit the places they are kept in. -/
def Encodes (srcbits : ℕ) (fs : List WireField) (c : Content) : Prop :=
  ∃ choices : WireChoices, Encodable c.body ∧ c.coreId.toNat < 2 ^ srcbits ∧
    fs = messageFields srcbits choices c.coreId c.body c.timestamp

def Tells (srcbits : ℕ) (msg : List Byte) (c : Content) : Prop :=
  ∃ fs, Encodes srcbits fs c ∧ Laid 0 fs ∧ encode fs = msg

open Classical in
/-- Called over and over, the parser delivers the well-formed messages in their order and fails once
for each of the others, and only then does it report the end of the file. Nothing behind the arrays
of the analytics has been written. -/
def DeliversAll (s : SliceFileParser) (analytics : Analytics) (nm : NexusMessage)
    (msgs : List (List Byte)) :
    Prop :=
  ∃ rs r, ReadsAll s analytics nm rs r ∧
    List.Forall₂ (Tells s.srcbits) (msgs.filter (WellFormed s.srcbits ·))
      (rs.filterMap (·.delivered)) ∧
    rs.countP (·.rc ≠ .ok) = msgs.countP (¬ WellFormed s.srcbits ·) ∧ r.analytics.overrun = false

/-- What the parser needs of a message: one that is not well formed has a code without a
parse function, and one that is well formed has values that fit, no field that is refused
and a core that exists. -/
structure Recoverable (srcbits : ℕ) (msg : List Byte) : Prop where
  malformed : ¬ WellFormed srcbits msg → parserOf (codeOf msg) = none
  wellFormed : WellFormed srcbits msg → ∃ fs c, Encodes srcbits fs c ∧ Laid 0 fs ∧ encode fs = msg ∧
    Accepted fs ∧ c.coreId.toNat < DQR_MAXCORES

structure AtMessages (srcbits : ℕ) (msgs : List (List Byte)) (s : SliceFileParser)
    (analytics : Analytics) :
    Prop where
  status : s.status = .ok
  flush : s.flushMessage = false
  srcbits : s.srcbits = srcbits
  tf : s.tf = msgs.flatten
  analytics : analytics.status = .ok

/-! ### One call -/

theorem Framed.two_le_length {msg : List Byte} (h : Framed msg) : 2 ≤ msg.length := by
  obtain @⟨first, last, middle, -⟩ := h
  rw [List.length_cons, List.length_append, List.length_singleton]
  omega

theorem Framed.length_le {msg : List Byte} (h : Framed msg) : msg.length ≤ 64 := by
  obtain @⟨first, last, middle, -, -, -, -, hlen⟩ := h
  rw [List.length_cons, List.length_append, List.length_singleton]
  omega

theorem parseFixedField_code (s : SliceFileParser) (hbit : s.bitIndex = 0) (heom : s.eom = false)
    (hlen : 2 ≤ s.msgSlices) : parseFixedField 6 s = .ok (insideField s.msg 0 0 6)
      { s with bitIndex := 6, eom := mseo s.msg 0 == MSEO_END } := by
  simp only [parseFixedField, hbit, heom, Nat.zero_div, Nat.zero_mod, Nat.zero_add,
    Nat.reduceEqDiff, if_false, show ¬ s.msgSlices * 6 ≤ 6 by omega, Nat.lt_irrefl, Bool.false_or]

/-- The message code of a framed message can always be read. -/
theorem parseTraceMsg_code (s : SliceFileParser) (hbit : s.bitIndex = 0) (heom : s.eom = false)
    (hlen : 2 ≤ s.msgSlices) :
    parseTraceMsg s = match parserOf (codeOf s.msg) with
      | some parse => parse { s with bitIndex := 6, eom := mseo s.msg 0 == MSEO_END }
      | none => .error .err { s with bitIndex := 6, eom := mseo s.msg 0 == MSEO_END } := by
  rw [parseTraceMsg, bind_ok (parseFixedField_code s hbit heom hlen), codeOf]
  cases parserOf (TCode.ofCode (insideField s.msg 0 0 6).toNat) <;> rfl

/-- A message is parsed as it is on its own. The status is left alone, unless there is an error
other than a code that has no parse function. -/
theorem parseTraceMsg_alone (s : SliceFileParser) (hbit : s.bitIndex = 0) (heom : s.eom = false)
    (hlen : s.msgSlices = s.msg.length) (h2 : 2 ≤ s.msg.length) :
    match parseTraceMsg s with
    | .ok m s' => contentOf s.srcbits s.msg = some ⟨m.coreId, m.timestamp, m.body⟩ ∧
        KnownBody (codeOf s.msg) m.body ∧ ∃ bitIndex eom,
          s' = { s with bitIndex := bitIndex, eom := eom }
    | .error _ s' => contentOf s.srcbits s.msg = none ∧ ∃ bitIndex eom rc,
        s' = { s with bitIndex := bitIndex, eom := eom, status := rc } ∧
        if parserOf (codeOf s.msg) = none then rc = s.status else rc ≠ .ok ∧ rc ≠ .eof := by
  have hrun := parseTraceMsg_code s hbit heom (by omega)
  have halone : parseTraceMsg (atMessage s.srcbits s.msg) = match parserOf (codeOf s.msg) with
      | some parse =>
        parse { atMessage s.srcbits s.msg with bitIndex := 6, eom := mseo s.msg 0 == MSEO_END }
      | none =>
        .error .err { atMessage s.srcbits s.msg with bitIndex := 6, eom := mseo s.msg 0 ==
          MSEO_END } :=
    parseTraceMsg_code (atMessage s.srcbits s.msg) rfl rfl h2
  unfold contentOf
  cases hparser : parserOf (codeOf s.msg) with
  | none =>
    rw [hparser] at hrun halone
    rw [hrun, halone]
    exact ⟨rfl, _, _, s.status, rfl, by rw [if_pos rfl]⟩
  | some parse =>
    rw [hparser] at hrun halone
    have hsame : SameMessage s (atMessage s.srcbits s.msg) := ⟨rfl, rfl, hlen⟩
    have hboth :=
      parserOf_readsMessage hparser s _ hsame _ _ ⟨6, mseo s.msg 0 == MSEO_END, rfl, rfl⟩
    simp only at hrun halone
    rw [← hrun, ← halone] at hboth
    cases hs : parseTraceMsg s with
    | ok m s' =>
      cases ht : parseTraceMsg (atMessage s.srcbits s.msg) with
      | ok m' t' =>
        rw [hs, ht] at hboth
        obtain ⟨rfl, hbody, bitIndex, eom, hs', -⟩ := hboth
        exact ⟨rfl, hbody, bitIndex, eom, hs'⟩
      | error => rw [hs, ht] at hboth; exact hboth.elim
    | error e s' =>
      cases ht : parseTraceMsg (atMessage s.srcbits s.msg) with
      | ok => rw [hs, ht] at hboth; exact hboth.elim
      | error =>
        rw [hs, ht] at hboth
        obtain ⟨-, bitIndex, eom, rc, hok, heof, hs', -⟩ := hboth
        exact ⟨rfl, bitIndex, eom, rc, hs', by rw [if_neg (by simp)]; exact ⟨hok, heof⟩⟩

/-- The two ways in which a call deals with the message before it. -/
theorem readNextTraceMsg_framed {srcbits : ℕ} {msg : List Byte} {msgs : List (List Byte)}
    {s : SliceFileParser} {analytics : Analytics} (nm : NexusMessage) (hmsg : Framed msg)
    (hat : AtMessages srcbits (msg :: msgs) s analytics) :
    let r := s.readNextTraceMsg analytics nm
    r.delivered = contentOf srcbits msg ∧ (r.rc = .ok ↔ (contentOf srcbits msg).isSome) ∧
      r.rc ≠ .eof ∧ (r.analytics.overrun = (analytics.overrun ||
        (contentOf srcbits msg).any fun c => decide (DQR_MAXCORES ≤ c.coreId.toNat))) ∧
      if contentOf srcbits msg = none ∧ parserOf (codeOf msg) ≠ none then
        r.parser.status ≠ .ok ∧ r.parser.status ≠ .eof
      else AtMessages srcbits msgs r.parser r.analytics := by
  obtain ⟨hstatus, hflush, hsrc, htf, hanalytics⟩ := hat
  have hread := readBinaryMsg_framed s msgs.flatten hmsg hflush (by rw [htf, List.flatten_cons])
  set s₀ : SliceFileParser := { s with
    tf := msgs.flatten, tellg := s.tellg + msg.length, msgOffset :=
      BitVec.ofNat 32 (s.tellg + 1) - 1
    msg := msg, msgSlices := msg.length, bitIndex := 0, eom := false } with hs₀
  have hparse := parseTraceMsg_alone s₀ rfl rfl rfl hmsg.two_le_length
  have hsrc₀ : s₀.srcbits = srcbits := hsrc
  have hmsg₀ : s₀.msg = msg := rfl
  have hstatus₀ : s₀.status = .ok := hstatus
  rw [hsrc₀, hmsg₀, hstatus₀] at hparse
  intro r
  have hr : r = s.readNextTraceMsg analytics nm := rfl
  cases hrun : parseTraceMsg s₀ with
  | ok m s' =>
    rw [hrun] at hparse
    obtain ⟨hcontent, ⟨hbody, -⟩, bitIndex, eom, hs'⟩ := hparse
    simp only [readNextTraceMsg, hstatus, hread, hrun, Analytics.updateTraceInfo_status, hbody,
      hanalytics, ne_eq, not_true_eq_false, if_false, Bool.false_eq_true, Bool.true_eq_false] at hr
    rw [hr, hcontent]
    refine ⟨?_, by simp, by simp, rfl, ?_⟩
    · cases m.timestamp <;> simp [ReadResult.delivered]
    · rw [if_neg (by simp)]
      subst hs'
      refine ⟨rfl, hflush, rfl, rfl, ?_⟩
      rw [Analytics.updateTraceInfo_status, hbody, if_neg (by decide), hanalytics]
  | error e s' =>
    rw [hrun] at hparse
    obtain ⟨hcontent, bitIndex, eom, rc, hs', hrc⟩ := hparse
    simp only [readNextTraceMsg, hstatus, hread, hrun, ne_eq, not_true_eq_false, if_false,
      Bool.true_eq_false] at hr
    rw [hr, hcontent]
    refine ⟨rfl, by simp, by simp, (Bool.or_false _).symm, ?_⟩
    subst hs'
    by_cases hcode : parserOf (codeOf msg) = none
    · rw [if_pos hcode] at hrc
      rw [if_neg fun h => h.2 hcode]
      exact ⟨hrc, hflush, rfl, rfl, hanalytics⟩
    · rw [if_neg hcode] at hrc
      rw [if_pos ⟨rfl, hcode⟩]
      exact hrc

/-! ### All calls -/

/-- What holds of the result of each call made in a state with `inv` holds of all results. -/
theorem forall_readMsgs {inv : SliceFileParser → Prop} {post : ReadResult → Prop}
    (hstep : ∀ s analytics nm, inv s →
      post (s.readNextTraceMsg analytics nm) ∧ inv (s.readNextTraceMsg analytics nm).parser)
    (n : ℕ) {s : SliceFileParser} (hs : inv s) (analytics : Analytics) (nm : NexusMessage) :
    ∀ r ∈ readMsgs n s analytics nm, post r := by
  induction n generalizing s analytics nm with
  | zero => exact List.forall_mem_nil _
  | succ n ih =>
    obtain ⟨hpost, hnext⟩ := hstep s analytics nm hs
    exact List.forall_mem_cons.mpr ⟨hpost, ih hnext _ _⟩

theorem readMsgs_stuck {s : SliceFileParser} (analytics : Analytics) (nm : NexusMessage) (n : ℕ)
    (hok : s.status ≠ .ok) (heof : s.status ≠ .eof) :
    ∀ r ∈ readMsgs n s analytics nm, r.rc ≠ .eof := by
  have hstuck : ∀ analytics nm, s.readNextTraceMsg analytics nm =
      ⟨s.status, false, nm, s, analytics⟩ :=
    fun _ _ => if_pos hok
  have hstep : ∀ t analytics nm, s = t → (t.readNextTraceMsg analytics nm).rc ≠ .eof ∧
      s = (t.readNextTraceMsg analytics nm).parser := by
    rintro t analytics nm rfl
    rw [hstuck]
    exact ⟨heof, rfl⟩
  exact forall_readMsgs hstep n rfl analytics nm

section
variable {srcbits : ℕ} {msgs : List (List Byte)} {s : SliceFileParser} {analytics : Analytics}

/-- The end of the file is not reached behind a message that cannot be parsed although its code has
a parse function. -/
theorem readMsgs_never_eof (nm : NexusMessage) (hframed : ∀ msg ∈ msgs, Framed msg)
    (hat : AtMessages srcbits msgs s analytics) {bad : List Byte} (hbad : bad ∈ msgs)
    (hcontent : contentOf srcbits bad = none) (hcode : parserOf (codeOf bad) ≠ none) (n : ℕ) :
    ∀ r ∈ readMsgs n s analytics nm, r.rc ≠ .eof := by
  induction msgs generalizing s analytics nm n with
  | nil => exact absurd hbad List.not_mem_nil
  | cons msg msgs ih =>
    obtain ⟨hmsg, hframed⟩ := List.forall_mem_cons.mp hframed
    obtain ⟨-, -, heof, -, hnext⟩ := readNextTraceMsg_framed nm hmsg hat
    cases n with
    | zero => exact List.forall_mem_nil _
    | succ n =>
      rw [readMsgs]
      refine List.forall_mem_cons.mpr ⟨heof, ?_⟩
      by_cases hstuck : contentOf srcbits msg = none ∧ parserOf (codeOf msg) ≠ none
      · rw [if_pos hstuck] at hnext
        exact readMsgs_stuck _ _ n hnext.1 hnext.2
      · rw [if_neg hstuck] at hnext
        have hrest : bad ∈ msgs := (List.mem_cons.mp hbad).resolve_left fun h =>
          hstuck (h ▸ ⟨hcontent, hcode⟩)
        exact ih _ hframed hnext hrest n

theorem readNextTraceMsg_end (nm : NexusMessage) (hat : AtMessages srcbits [] s analytics) :
    (s.readNextTraceMsg analytics nm).rc = .eof ∧
      (s.readNextTraceMsg analytics nm).analytics = analytics := by
  rw [readNextTraceMsg, hat.status, if_neg (by decide), readBinaryMsg, hat.flush, hat.tf]
  exact ⟨rfl, rfl⟩

/-- The end of the file is reached if no other message than one with an unknown code fails. -/
theorem readsAll_of_codes (nm : NexusMessage) (hframed : ∀ msg ∈ msgs, Framed msg)
    (hat : AtMessages srcbits msgs s analytics)
    (hcodes : ∀ msg ∈ msgs, contentOf srcbits msg = none → parserOf (codeOf msg) = none) :
    ∃ rs r, ReadsAll s analytics nm rs r := by
  induction msgs generalizing s analytics nm with
  | nil => exact ⟨[], _, rfl, (readNextTraceMsg_end nm hat).1, List.forall_mem_nil _⟩
  | cons msg msgs ih =>
    obtain ⟨hmsg, hframed⟩ := List.forall_mem_cons.mp hframed
    obtain ⟨hcode, hcodes⟩ := List.forall_mem_cons.mp hcodes
    obtain ⟨-, -, heof, -, hnext⟩ := readNextTraceMsg_framed nm hmsg hat
    rw [if_neg fun h => h.2 (hcode h.1)] at hnext
    obtain ⟨rs, r, hruns, hr, hrs⟩ := ih _ hframed hnext hcodes
    refine ⟨s.readNextTraceMsg analytics nm :: rs, r, ?_, hr, List.forall_mem_cons.mpr ⟨heof, hrs⟩⟩
    rw [List.length_cons, readMsgs, hruns, List.cons_append]

theorem ReadsAll.nil_inv {nm : NexusMessage} {r : ReadResult} (h : ReadsAll s analytics nm [] r) :
    r = s.readNextTraceMsg analytics nm := by
  have hcalls := h.calls
  rw [List.length_nil, List.nil_append, readMsgs] at hcalls
  exact (List.cons.inj hcalls).1.symm

theorem ReadsAll.cons_inv {nm : NexusMessage} {q r : ReadResult} {rs : List ReadResult}
    (h : ReadsAll s analytics nm (q :: rs) r) :
    q = s.readNextTraceMsg analytics nm ∧ ReadsAll q.parser q.analytics q.nm rs r := by
  obtain ⟨hcalls, hlast, hbefore⟩ := h
  rw [List.length_cons, readMsgs, List.cons_append] at hcalls
  obtain ⟨rfl, hrest⟩ := List.cons.inj hcalls
  exact ⟨rfl, hrest, hlast, fun q hq => hbefore q (List.mem_cons_of_mem _ hq)⟩

/-- What the calls return is what the parser makes of each message. -/
theorem ReadsAll.results {nm : NexusMessage} {rs : List ReadResult} {r : ReadResult}
    (h : ReadsAll s analytics nm rs r) (hframed : ∀ msg ∈ msgs, Framed msg)
    (hat : AtMessages srcbits msgs s analytics)
    (hcodes : ∀ msg ∈ msgs, contentOf srcbits msg = none → parserOf (codeOf msg) = none) :
    rs.filterMap (·.delivered) = msgs.filterMap (contentOf srcbits) ∧
      rs.countP (·.rc ≠ .ok) = msgs.countP (contentOf srcbits · = none) ∧
      (r.analytics.overrun = false ↔ analytics.overrun = false ∧
        ∀ msg ∈ msgs, ∀ c ∈ contentOf srcbits msg, c.coreId.toNat < DQR_MAXCORES) := by
  induction msgs generalizing s analytics nm rs with
  | nil =>
    obtain ⟨hend, hsame⟩ := readNextTraceMsg_end nm hat
    cases rs with
    | nil =>
      rw [h.nil_inv, hsame]
      exact ⟨rfl, rfl, (and_iff_left (List.forall_mem_nil _)).symm⟩
    | cons q rs =>
      have hq := h.before q List.mem_cons_self
      rw [h.cons_inv.1] at hq
      exact absurd hend hq
  | cons msg msgs ih =>
    obtain ⟨hmsg, hframed⟩ := List.forall_mem_cons.mp hframed
    obtain ⟨hcode, hcodes⟩ := List.forall_mem_cons.mp hcodes
    obtain ⟨hdelivered, hrc, heof, hoverrun, hnext⟩ := readNextTraceMsg_framed nm hmsg hat
    rw [if_neg fun h => h.2 (hcode h.1)] at hnext
    cases rs with
    | nil => exact absurd h.last (h.nil_inv ▸ heof)
    | cons q rs =>
      obtain ⟨rfl, hrest⟩ := h.cons_inv
      obtain ⟨hall, hcount, hinside⟩ := ih hrest hframed hnext hcodes
      refine ⟨?_, ?_, ?_⟩
      · rw [List.filterMap_cons, List.filterMap_cons, hdelivered, hall]
      · have hfails : (s.readNextTraceMsg analytics nm).rc ≠ .ok ↔
            contentOf srcbits msg = none := by
          rw [Ne, hrc, Option.isSome_iff_ne_none, not_not]
        rw [List.countP_cons, List.countP_cons, hcount]
        simp only [hfails]
      · rw [hinside, hoverrun, List.forall_mem_cons]
        cases contentOf srcbits msg <;> simp [and_assoc]

end

/-! ### Well-formed messages -/

section
variable {srcbits : ℕ} {fs : List WireField} {c : Content} {msg : List Byte}

theorem MessageFields.reading (h : MessageFields srcbits fs c) (hlaid : Laid 0 fs) :
    Reading (atMessage srcbits (encode fs)) fs (atMessage srcbits (encode fs)) := by
  obtain ⟨n, htotal⟩ := h.totalBits_eq hlaid
  exact reading_start hlaid (by omega) rfl rfl rfl rfl

/-- The parser makes of a message what its fields say, unless one is refused. -/
theorem MessageFields.contentOf (h : MessageFields srcbits fs c) (hlaid : Laid 0 fs) :
    contentOf srcbits (encode fs) = if Accepted fs then some c else none := by
  obtain ⟨bits, ts_bits, addr_bits, hdecides⟩ :=
    parseTraceMsg_decides (atMessage srcbits (encode fs)) h
  have hread := h.reading hlaid
  by_cases haccepted : Accepted fs
  · obtain ⟨s', hrun, -⟩ := hdecides.succeeds haccepted _ hread
    rw [TraceDecoder.contentOf, hrun, if_pos haccepted]
  · obtain ⟨e, s', hrun⟩ := hdecides.fails haccepted _ hread
    rw [TraceDecoder.contentOf, hrun, if_neg haccepted]

theorem MessageFields.codeOf (h : MessageFields srcbits fs c) (hlaid : Laid 0 fs) :
    codeOf (encode fs) = c.body.tcode := by
  have hread := h.reading hlaid
  obtain ⟨n, htotal⟩ := h.totalBits_eq hlaid
  obtain @⟨fs, body, src, ts, hbody, hsrc⟩ := h
  obtain ⟨s', hrun, -⟩ := parseFixedField_reads _ _ _ _ _ hread
  have hlen : 2 ≤ (atMessage srcbits (encode (.fixed 6 body.tcode.toNat ::
      (sourceFields srcbits src ++ (fs ++ timestampFields ts))))).msgSlices := by
    change 2 ≤ (encode _).length
    rw [length_encode]
    omega
  rw [parseFixedField_code _ rfl rfl hlen] at hrun
  obtain ⟨hcode, -⟩ := EStateM.Result.ok.inj hrun
  have hmod : (BitVec.ofNat 64 body.tcode.toNat).toNat = body.tcode.toNat :=
    Nat.mod_eq_of_lt (body.tcode.toNat_lt.trans (by decide))
  refine (congrArg (fun field : BitVec 64 => TCode.ofCode field.toNat) hcode).trans ?_
  rw [hmod, TCode.ofCode_toNat]

theorem WellFormed.parserOf_ne_none (h : WellFormed srcbits msg) :
    parserOf (codeOf msg) ≠ none := by
  obtain ⟨fs, c, hfields, hlaid, rfl⟩ := h
  rw [hfields.codeOf hlaid]
  obtain @⟨fs, body, src, ts, hbody, hsrc⟩ := hfields
  obtain ⟨fields, hparser, -⟩ := hbody.reads
  rw [hparser]
  exact Option.some_ne_none _

theorem contentOf_unknown (hmsg : Framed msg) (hcode : parserOf (codeOf msg) = none) :
    contentOf srcbits msg = none := by
  have hrun := parseTraceMsg_code (atMessage srcbits msg) rfl rfl hmsg.two_le_length
  have hsame : parserOf (codeOf (atMessage srcbits msg).msg) = none := hcode
  rw [hsame] at hrun
  rw [contentOf, hrun]

theorem Encodes.messageFields (h : Encodes srcbits fs c) : MessageFields srcbits fs c := by
  obtain ⟨choices, hbody, hcore, rfl⟩ := h
  exact messageFields_layout choices hcore hbody c.timestamp

theorem Recoverable.contentOf_eq (h : Recoverable srcbits msg) (hwell : WellFormed srcbits msg) :
    ∃ c, contentOf srcbits msg = some c ∧ Tells srcbits msg c ∧ c.coreId.toNat < DQR_MAXCORES := by
  obtain ⟨fs, c, htold, hlaid, rfl, haccepted, hcore⟩ := h.wellFormed hwell
  refine ⟨c, ?_, ⟨fs, htold, hlaid, rfl⟩, hcore⟩
  rw [htold.messageFields.contentOf hlaid, if_pos haccepted]

theorem Recoverable.isSome_iff (h : Recoverable srcbits msg) (hmsg : Framed msg) :
    (contentOf srcbits msg).isSome ↔ WellFormed srcbits msg := by
  constructor
  · intro hsome
    by_contra hnot
    rw [contentOf_unknown hmsg (h.malformed hnot)] at hsome
    cases hsome
  · intro hwell
    obtain ⟨c, hcontent, -⟩ := h.contentOf_eq hwell
    rw [hcontent]
    rfl

end

/-! ### Counting -/

section
variable {α β : Type} {l : List α}

theorem countP_eq_iff {p q : α → Bool} (h : ∀ a ∈ l, p a → q a) :
    l.countP p = l.countP q ↔ ∀ a ∈ l, q a → p a := by
  induction l with
  | nil => exact iff_of_true rfl (List.forall_mem_nil _)
  | cons a l ih =>
    obtain ⟨ha, hl⟩ := List.forall_mem_cons.mp h
    have hle := List.countP_mono_left hl
    rw [List.forall_mem_cons, ← ih hl, List.countP_cons, List.countP_cons]
    cases hp : p a <;> cases hq : q a
    · simp
    · simp
      omega
    · rw [hp, hq] at ha
      exact absurd (ha rfl) Bool.false_ne_true
    · simp

theorem forall₂_filterMap_iff {R : α → β → Prop} {p : α → Bool} {f : α → Option β}
    (h : ∀ a ∈ l, (f a).isSome ↔ p a) :
    List.Forall₂ R (l.filter p) (l.filterMap f) ↔ ∀ a ∈ l, ∀ b ∈ f a, R a b := by
  induction l with
  | nil => exact iff_of_true .nil (List.forall_mem_nil _)
  | cons a l ih =>
    obtain ⟨ha, hl⟩ := List.forall_mem_cons.mp h
    rw [List.forall_mem_cons, ← ih hl, List.filter_cons, List.filterMap_cons]
    cases hf : f a with
    | none =>
      rw [hf] at ha
      rw [if_neg fun hp => by cases ha.mpr hp]
      simp
    | some b =>
      rw [hf] at ha
      rw [if_pos (ha.mp rfl), List.forall₂_cons]
      simp

end

open Classical in
/-- The parser gets over the corrupted messages of a file and delivers the others exactly when all
of its messages are recoverable. -/
theorem readNextTraceMsg_recovers_iff (srcbits : ℕ) (nm : NexusMessage) (msgs : List (List Byte))
    (hframed : ∀ msg ∈ msgs, Framed msg) :
    DeliversAll (SliceFileParser.init srcbits msgs.flatten) {} nm msgs ↔
      ∀ msg ∈ msgs, Recoverable srcbits msg := by
  have hat : AtMessages srcbits msgs (SliceFileParser.init srcbits msgs.flatten) {} :=
    ⟨rfl, rfl, rfl, rfl, rfl⟩
  constructor
  · rintro ⟨rs, r, hreads, hdelivered, hcount, hinside⟩
    have hcodes : ∀ msg ∈ msgs, contentOf srcbits msg = none → parserOf (codeOf msg) = none := by
      intro bad hbad hcontent
      by_contra hcode
      have hnever := readMsgs_never_eof nm hframed hat hbad hcontent hcode (rs.length + 1) r
      rw [hreads.calls] at hnever
      exact hnever (by simp) hreads.last
    obtain ⟨hall, hfails, hin⟩ := hreads.results hframed hat hcodes
    -- a message that fails is not well formed, and there are as many of the ones as of the others
    have hnot : ∀ msg ∈ msgs, contentOf srcbits msg = none → ¬ WellFormed srcbits msg :=
      fun msg hmsg hnone hwell => hwell.parserOf_ne_none (hcodes msg hmsg hnone)
    rw [hfails] at hcount
    have hnone := (countP_eq_iff fun msg hmsg h =>
      decide_eq_true (hnot msg hmsg (of_decide_eq_true h))).mp hcount
    have hsome : ∀ msg ∈ msgs, (contentOf srcbits msg).isSome ↔ decide (WellFormed srcbits msg) =
        true := by
      intro msg hmsg
      rw [decide_eq_true_iff, Option.isSome_iff_ne_none, ← not_iff_not, not_not]
      exact ⟨hnot msg hmsg, fun h => of_decide_eq_true (hnone msg hmsg (decide_eq_true h))⟩
    rw [hall] at hdelivered
    have htells : ∀ msg ∈ msgs, ∀ c ∈ contentOf srcbits msg, Tells srcbits msg c :=
      (forall₂_filterMap_iff hsome).mp hdelivered
    refine fun msg hmsg => ⟨fun hnot => ?_, fun hwell => ?_⟩
    · exact hcodes msg hmsg (of_decide_eq_true (hnone msg hmsg (decide_eq_true hnot)))
    · obtain ⟨c, hcontent⟩ :=
        Option.isSome_iff_exists.mp ((hsome msg hmsg).mpr (decide_eq_true hwell))
      obtain ⟨fs, htold, hlaid, rfl⟩ := htells msg hmsg c hcontent
      have hcore := (hin.mp hinside).2 _ hmsg c hcontent
      rw [htold.messageFields.contentOf hlaid] at hcontent
      exact ⟨fs, c, htold, hlaid, rfl, (Option.ite_none_right_eq_some.mp hcontent).1, hcore⟩
  · intro hrecover
    have hcodes : ∀ msg ∈ msgs, contentOf srcbits msg = none → parserOf (codeOf msg) = none := by
      intro msg hmsg hnone
      refine (hrecover msg hmsg).malformed fun hwell => ?_
      obtain ⟨c, hcontent, -⟩ := (hrecover msg hmsg).contentOf_eq hwell
      rw [hnone] at hcontent
      cases hcontent
    obtain ⟨rs, r, hreads⟩ := readsAll_of_codes nm hframed hat hcodes
    obtain ⟨hall, hfails, hin⟩ := hreads.results hframed hat hcodes
    have hsome : ∀ msg ∈ msgs, (contentOf srcbits msg).isSome ↔ WellFormed srcbits msg :=
      fun msg hmsg => (hrecover msg hmsg).isSome_iff (hframed msg hmsg)
    have hcontent : ∀ msg ∈ msgs, ∀ c ∈ contentOf srcbits msg,
        Tells srcbits msg c ∧ c.coreId.toNat < DQR_MAXCORES := by
      intro msg hmsg c hc
      have hwell := (hsome msg hmsg).mp (Option.isSome_of_mem hc)
      obtain ⟨c', hsame, hc'⟩ := (hrecover msg hmsg).contentOf_eq hwell
      rw [Option.mem_unique hc hsame]
      exact hc'
    refine ⟨rs, r, hreads, ?_, ?_, ?_⟩
    · rw [hall]
      refine (forall₂_filterMap_iff fun msg hmsg => ?_).mpr fun msg hmsg c hc =>
        (hcontent msg hmsg c hc).1
      rw [decide_eq_true_iff]
      exact hsome msg hmsg
    · rw [hfails]
      refine List.countP_congr fun msg hmsg => ?_
      change _ ↔ decide (¬ WellFormed srcbits msg) = true
      rw [decide_eq_true_iff, decide_eq_true_iff, ← hsome msg hmsg, Option.isSome_iff_ne_none,
        not_not]
    · exact hin.mpr ⟨rfl, fun msg hmsg c hc => (hcontent msg hmsg c hc).2⟩

theorem framed_pair {first last : Byte} (hfirst : first ≠ 0x00)
    (hmark : first &&& 0x03 = MSEO_NORMAL)
    (hlast : last &&& 0x03 = MSEO_END) : Framed [first, last] := by
  have hpair : Framed (first :: ([] ++ [last])) :=
    .mk hfirst hmark (List.forall_mem_nil _) hlast (Nat.zero_le _)
  exact hpair

theorem encodes_directBranch : Encodes 0 [.fixed 6 3, .var 6 5] ⟨0, none, .directBranch 5⟩ :=
  ⟨⟨fun _ => 6, 0, 0⟩, ⟨by decide, by decide⟩, by decide, rfl⟩

theorem width_le_totalBits {f : WireField} {fs : List WireField} (hf : f ∈ fs) :
    f.width ≤ totalBits fs := by
  induction fs with
  | nil => exact absurd hf List.not_mem_nil
  | cons g fs ih =>
    rcases List.mem_cons.mp hf with rfl | hf
    · exact Nat.le_add_right _ _
    · exact (ih hf).trans (Nat.le_add_left _ _)

theorem WellFormed.isSome_of_short {srcbits : ℕ} {msg : List Byte} (h : WellFormed srcbits msg)
    (hlen : msg.length < 10) : (contentOf srcbits msg).isSome := by
  obtain ⟨fs, c, hfields, hlaid, rfl⟩ := h
  have haccepted : Accepted fs := by
    intro f hf hrefused
    have hle := width_le_totalBits hf
    rw [length_encode] at hlen
    cases f with
    | fixed => exact hrefused
    | var w v =>
      have hw : w = 65 := hrefused.1
      change w ≤ totalBits fs at hle
      omega
  rw [hfields.contentOf hlaid, if_pos haccepted]
  rfl

/-- A resource-full message with an `rCode` of 2 ends the reading in front of
a direct branch message. -/
theorem not_deliversAll_rCode :
    (Framed [0x6c, 0x0b] ∧ ¬ WellFormed 0 [0x6c, 0x0b]) ∧
      (Framed [0x0c, 0x17] ∧ Tells 0 [0x0c, 0x17] ⟨0, none, .directBranch 5⟩) ∧
      ¬ DeliversAll (SliceFileParser.init 0 [0x6c, 0x0b, 0x0c, 0x17]) {} NexusMessage.init
        [[0x6c, 0x0b], [0x0c, 0x17]] := by
  have hresource : Framed [0x6c, 0x0b] := framed_pair (by decide) (by decide) (by decide)
  have hbranch : Framed [0x0c, 0x17] := framed_pair (by decide) (by decide) (by decide)
  have hnone : contentOf 0 [0x6c, 0x0b] = none := by decide
  refine ⟨⟨hresource, fun hwell => ?_⟩,
    ⟨hbranch, [.fixed 6 3, .var 6 5], encodes_directBranch, by decide, by decide⟩, ?_⟩
  · have hsome := hwell.isSome_of_short (by decide)
    rw [hnone] at hsome
    cases hsome
  · rintro ⟨rs, r, hreads, -⟩
    have hframed : ∀ msg ∈ [[0x6c, 0x0b], [0x0c, 0x17]], Framed msg :=
      List.forall_mem_cons.mpr ⟨hresource, List.forall_mem_singleton.mpr hbranch⟩
    have hcode : codeOf [0x6c, 0x0b] = .resourceFull := by decide
    have hat : AtMessages 0 [[0x6c, 0x0b], [0x0c, 0x17]]
        (SliceFileParser.init 0 [0x6c, 0x0b, 0x0c, 0x17]) {} := ⟨rfl, rfl, rfl, rfl, rfl⟩
    have hnever := readMsgs_never_eof NexusMessage.init hframed hat List.mem_cons_self
      hnone (by rw [hcode]; exact Option.some_ne_none _) (rs.length + 1) r
    rw [hreads.calls] at hnever
    exact hnever (by simp) hreads.last

/-- Behind a message with an unknown code the next one is still delivered. -/
theorem readNextTraceMsg_recovers_unknownCode :
    DeliversAll (SliceFileParser.init 0 [0x0c, 0x17, 0xf0, 0x03, 0x0c, 0x17]) {} NexusMessage.init
      [[0x0c, 0x17], [0xf0, 0x03], [0x0c, 0x17]] := by
  have hbranch : Framed [0x0c, 0x17] := framed_pair (by decide) (by decide) (by decide)
  have hunknown : Framed [0xf0, 0x03] := framed_pair (by decide) (by decide) (by decide)
  have hframed : ∀ msg ∈ [[0x0c, 0x17], [0xf0, 0x03], [0x0c, 0x17]], Framed msg :=
    List.forall_mem_cons.mpr ⟨hbranch, List.forall_mem_cons.mpr
      ⟨hunknown, List.forall_mem_singleton.mpr hbranch⟩⟩
  have hread : Recoverable 0 [0x0c, 0x17] := by
    refine ⟨fun hnot => absurd ?_ hnot, fun _ => ?_⟩
    · exact ⟨_, _, encodes_directBranch.messageFields, by decide, by decide⟩
    · exact ⟨_, _, encodes_directBranch, by decide, by decide, by decide, by decide⟩
  have hskipped : Recoverable 0 [0xf0, 0x03] :=
    ⟨fun _ => rfl, fun hwell => absurd rfl hwell.parserOf_ne_none⟩
  exact (readNextTraceMsg_recovers_iff 0 NexusMessage.init _ hframed).mpr
    (List.forall_mem_cons.mpr ⟨hread, List.forall_mem_cons.mpr
      ⟨hskipped, List.forall_mem_singleton.mpr hread⟩⟩)

end TraceDecoder
