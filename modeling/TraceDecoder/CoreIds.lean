import TraceDecoder.Recovery

/-!
# Core ids

The source of a message is a field of `srcbits` bits, of which `coreId` keeps eight. Nothing checks
it against the number of cores that the arrays of the decoder have room for.
-/

namespace TraceDecoder

open SliceFileParser EStateM

/-- The number of cores given to `ITCPrint`, `1 << srcbits`; the shift count is taken modulo 32. -/
def itcPrintCores (srcBits : ℤ) : ℤ := (intBit (srcBits % 32).toNat).toInt

/-- The settings and the constructor of `Trace` take any `int` for `srcBits`; one that is not
positive leaves the source field out. -/
def parserFor (srcBits : ℤ) (file : List Byte) : SliceFileParser :=
  SliceFileParser.init srcBits.toNat file

/-- No message of any file has a core id that is too large for the arrays indexed by it. -/
def CoreIdsInRange (srcBits : ℤ) : Prop :=
  ∀ (file : List Byte) (nm : NexusMessage) (n : ℕ), ∀ r ∈ readMsgs n (parserFor srcBits file) {} nm,
    r.rc = .ok → r.nm.core < DQR_MAXCORES ∧ (r.nm.core : ℤ) < itcPrintCores srcBits

/-! ### What a call returns -/

theorem collectSlices_length {msg tf slices rest : List Byte}
    (h : collectSlices msg tf = .msg slices rest) :
    slices.length ≤ 64 := by
  induction tf generalizing msg with
  | nil =>
    rw [collectSlices] at h
    split_ifs at h
  | cons b tf ih =>
    rw [collectSlices] at h
    split_ifs at h with hfull hend
    · obtain ⟨rfl, -⟩ := BinaryMsg.msg.inj h
      rw [List.length_append, List.length_singleton]
      omega
    · exact ih h

structure Starts (srcbits : ℕ) (s : SliceFileParser) : Prop where
  srcbits : s.srcbits = srcbits
  bitIndex : s.bitIndex = 0
  room : s.msgSlices ≤ 64

theorem readBinaryMsg_starts (s : SliceFileParser) :
    (readBinaryMsg s).2.2.srcbits = s.srcbits ∧
      ((readBinaryMsg s).1 = .ok → (readBinaryMsg s).2.1 = true ∧ Starts s.srcbits
        (readBinaryMsg s).2.2) := by
  simp only [readBinaryMsg]
  cases skipIdle (if s.flushMessage then skipMessage s.tf else s.tf) with
  | nil => exact ⟨rfl, fun hok => by cases hok⟩
  | cons b tf =>
    cases hcollect : collectSlices [b] tf with
    | eof => simp only [hcollect]; exact ⟨trivial, fun hok => by cases hok⟩
    | bm tf' => simp only [hcollect]; exact ⟨trivial, fun hok => by cases hok⟩
    | msg slices tf' =>
      simp only [hcollect]
      exact ⟨trivial, fun _ => ⟨trivial, rfl, rfl, collectSlices_length hcollect⟩⟩

theorem ReadsMessage.keeps_srcbits {α : Type} {p : ParseM α} {post : α → Prop}
    (h : ReadsMessage p post) (n : ℕ) :
    Keeps (fun s => s.srcbits = n) p := by
  intro s hs
  have hrun := h s s ⟨rfl, rfl, rfl⟩ s s ⟨s.bitIndex, s.eom, rfl, rfl⟩
  cases hp : p s with
  | ok a s' =>
    rw [hp] at hrun
    obtain ⟨-, -, bitIndex, eom, hs', -⟩ := hrun
    rw [hs']
    exact hs
  | error e s' =>
    rw [hp] at hrun
    obtain ⟨-, bitIndex, eom, rc, -, -, hs', -⟩ := hrun
    rw [hs']
    exact hs

theorem keeps_parseTraceMsg_srcbits (n : ℕ) : Keeps (fun s => s.srcbits = n) parseTraceMsg := by
  refine ((ReadsMessage.parseFixedField_reads 6).keeps_srcbits n).bind fun tcode => ?_
  cases hparser : parserOf (TCode.ofCode tcode.toNat) with
  | none => exact Keeps.throw
  | some parse => exact (parserOf_readsMessage hparser).keeps_srcbits n

/-- A message that is returned has been parsed, by a parser with the same `srcbits`. -/
theorem readNextTraceMsg_parsed (s : SliceFileParser) (analytics : Analytics) (nm : NexusMessage) :
    let r := s.readNextTraceMsg analytics nm
    r.parser.srcbits = s.srcbits ∧
      (r.rc = .ok → ∃ s₁ m s₂, Starts s.srcbits s₁ ∧ parseTraceMsg s₁ = .ok m s₂ ∧ r.nm.coreId =
        m.coreId) := by
  obtain ⟨hsrc, hstarts⟩ := readBinaryMsg_starts s
  by_cases hstatus : s.status = .ok
  · rcases hread : readBinaryMsg s with ⟨rc, haveMsg, s₁⟩
    rw [hread] at hsrc hstarts
    simp only [readNextTraceMsg, hstatus, hread, ne_eq, not_true_eq_false, if_false]
    by_cases hrc : rc = .ok
    · obtain ⟨hhave, hs₁⟩ := hstarts hrc
      simp only at hhave hs₁
      have hkeeps := keeps_parseTraceMsg_srcbits s.srcbits s₁ hs₁.srcbits
      subst hrc hhave
      simp only [Bool.true_eq_false, if_false]
      cases hrun : parseTraceMsg s₁ with
      | error e s₂ =>
        rw [hrun] at hkeeps
        exact ⟨hkeeps, fun hok => by cases hok⟩
      | ok m s₂ =>
        rw [hrun] at hkeeps
        simp only
        split_ifs
        · exact ⟨hkeeps, fun _ => ⟨s₁, m, s₂, hs₁, hrun, rfl⟩⟩
        · exact ⟨hkeeps, fun hok => by cases hok⟩
    · cases rc
      · exact absurd rfl hrc
      all_goals exact ⟨hsrc, fun hok => by cases hok⟩
  · simp only [readNextTraceMsg, hstatus, ne_eq, not_false_eq_true, if_true]
    exact ⟨trivial, False.elim⟩

/-! ### The source field -/

theorem parserOf_eq {tcode : TCode} {parse : ParseM ParsedMsg} (h : parserOf tcode = some parse) :
    ∃ fields, parse = parseMessage fields := by
  cases tcode <;> cases h <;> exact ⟨_, rfl⟩

structure AtSrc (srcbits : ℕ) (s : SliceFileParser) : Prop where
  srcbits : s.srcbits = srcbits
  bitIndex : s.bitIndex = 6
  room : s.msgSlices ≤ 64

theorem leaves_message_code (n : ℕ) :
    Leaves (Starts n) (parseFixedField 6) (fun _ => AtSrc n) (fun _ _ => True) := by
  intro s hs
  have h6 : ¬ 6 = 0 := by decide
  rw [parseFixedField, if_neg h6]
  simp only [hs.bitIndex, Nat.zero_mod, Nat.zero_add, Nat.lt_irrefl, if_false]
  split_ifs
  · trivial
  · exact ⟨hs.srcbits, rfl, hs.room⟩

/-- The core id of a message is what the source field holds. -/
theorem leaves_parseTraceMsg_coreId {n : ℕ} {post : BitVec 8 → Prop}
    (hsrc : Leaves (AtSrc n) parseSrc (fun coreId _ => post coreId) (fun _ _ => True)) :
    Leaves (Starts n) parseTraceMsg (fun m _ => post m.coreId) (fun _ _ => True) := by
  have hkeeps : ∀ {α : Type} {q : Prop} (p : ParseM α),
      Leaves (fun _ => q) p (fun _ _ => q) (fun _ _ => True) := by
    intro α q p s hq
    cases p s with
    | ok => exact hq
    | error => trivial
  refine (leaves_message_code n).bind fun tcode => ?_
  cases hparser : parserOf (TCode.ofCode tcode.toNat) with
  | none => exact fun _ _ => trivial
  | some parse =>
    obtain ⟨fields, rfl⟩ := parserOf_eq hparser
    intro s hs
    exact (hsrc.bind fun coreId => (hkeeps fields).bind fun r => (hkeeps parseTimestamp).bind
        fun ts =>
      Leaves.pure fun _ h => h) s hs

theorem leaves_parseSrc_small {n : ℕ} (hn : n ≤ 4) :
    Leaves (AtSrc n) parseSrc (fun coreId _ => coreId.toNat < 2 ^ n) (fun _ _ => True) := by
  intro s hs
  have hget : parseSrc s = (if 0 < s.srcbits then do
      let tmp ← parseFixedField s.srcbits
      return tmp.setWidth 8
    else return 0 : ParseM (BitVec 8)) s := rfl
  rw [hget, hs.srcbits]
  by_cases h0 : 0 < n
  · have hfield : (insideField s.msg 1 0 n).toNat < 2 ^ n := by
      have hpos : 6 - (0 + n) + 0 + 2 = 8 - n := by omega
      rw [insideField, hpos, BitVec.toNat_setWidth, BitVec.toNat_ushiftRight,
        Nat.shiftRight_eq_div_pow]
      refine (Nat.mod_le _ _).trans_lt (Nat.div_lt_of_lt_mul ?_)
      rw [← pow_add, show 8 - n + n = 8 by omega]
      exact BitVec.isLt _
    rw [if_pos h0, bind_run, parseFixedField, if_neg (by omega)]
    simp only [hs.bitIndex, show ¬ 6 < 6 % 6 + n by omega, if_false]
    split_ifs
    · trivial
    · change ((insideField s.msg 1 0 n).setWidth 8).toNat < 2 ^ n
      exact (Nat.mod_le _ _).trans_lt hfield
  · rw [if_neg h0]
    exact Nat.two_pow_pos n

/-- A source field that does not fit the buffer is never read. -/
theorem leaves_parseSrc_large {n : ℕ} (hn : 378 ≤ n) :
    Leaves (AtSrc n) parseSrc (fun _ _ => False) (fun _ _ => True) := by
  intro s hs
  have hroom := hs.room
  have hget : parseSrc s = (if 0 < s.srcbits then do
      let tmp ← parseFixedField s.srcbits
      return tmp.setWidth 8
    else return 0 : ParseM (BitVec 8)) s := rfl
  rw [hget, hs.srcbits, if_pos (by omega), bind_run, parseFixedField, if_neg (by omega)]
  simp only [hs.bitIndex, show s.msgSlices * 6 ≤ 6 + n by omega, if_true]
  trivial

/-! ### Sources that are out of range -/

/-- A direct branch message of a core with the id 16, its source field `6 * (k + 1)` bits long or up
to five bits longer. -/
def wideSource (k : ℕ) : List Byte := 0x0c :: (0x40 :: List.replicate k 0x00 ++ [0x03])

theorem length_wideSource (k : ℕ) : (wideSource k).length = k + 3 := by
  simp only [wideSource, List.length_cons, List.length_append, List.length_replicate,
    List.length_nil]

theorem framed_wideSource {k : ℕ} (hk : k ≤ 61) : Framed (wideSource k) := by
  refine .mk (by decide) (by decide) (fun b hb => ?_) (by decide) ?_
  · rcases List.mem_cons.mp hb with rfl | hb
    · decide
    · rw [List.eq_of_mem_replicate hb]
      decide
  · rw [List.length_cons, List.length_replicate]
    omega

/-- Behind the first slice of the source field all data bits are 0. -/
theorem slice_wideSource (k : ℕ) {j : ℕ} (hj : 1 < j) :
    slice (wideSource k) j >>> 2 = 0 := by
  obtain ⟨j, rfl⟩ : ∃ i, j = i + 2 := ⟨j - 2, by omega⟩
  change ((List.replicate k 0x00 ++ [0x03] : List Byte).getD j 0) >>> 2 = 0
  by_cases hlt : j < (List.replicate k (0x00 : Byte) ++ [0x03]).length
  · rw [List.getD_eq_getElem _ _ hlt]
    rcases List.mem_append.mp (List.getElem_mem hlt) with h | h
    · rw [List.eq_of_mem_replicate h]
      rfl
    · rw [List.mem_singleton.mp h]
      rfl
  · rw [List.getD_eq_default _ _ (Nat.not_lt.mp hlt)]
    rfl

theorem slice_wideSource_last (k : ℕ) : slice (wideSource k) (k + 2) = 0x03 := by
  change (List.replicate k 0x00 ++ [0x03] : List Byte).getD k 0 = 0x03
  rw [List.getD_append_right _ _ _ _ (by rw [List.length_replicate]), List.length_replicate,
    Nat.sub_self]
  rfl

section
variable {msg : List Byte} {i : ℕ}

theorem middleSlices_zero (h : ∀ j, i ≤ j → slice msg j >>> 2 = 0) (fuel consumed r : ℕ)
    (v : BitVec 64) (hfuel : r ≤ fuel) :
    ∃ i' consumed' r', middleSlices msg fuel i consumed r v = (i', consumed', r', v) ∧ i ≤ i' ∧
      r' < 6 := by
  induction fuel generalizing i consumed r with
  | zero => exact ⟨i, consumed, r, rfl, le_rfl, by omega⟩
  | succ fuel ih =>
    rw [middleSlices]
    by_cases h6 : 6 ≤ r
    · have hdata : data msg i = 0 := by rw [data, h i le_rfl]; rfl
      have hzero : v ||| shl64 0 consumed = v := by simp [shl64]
      obtain ⟨i', consumed', r', hrun, hle, hr⟩ :=
        ih (i := i + 1) (fun j hj => h j (by omega)) (consumed + 6) (r - 6) (by omega)
      rw [if_pos h6, hdata, hzero]
      exact ⟨i', consumed', r', hrun, by omega, hr⟩
    · rw [if_neg h6]
      exact ⟨i, consumed, r, rfl, le_rfl, by omega⟩

theorem crossingField_zero (h : ∀ j, i < j → slice msg j >>> 2 = 0) (b width : ℕ) :
    (crossingField msg i b width).2 = (slice msg i >>> (b + 2)).setWidth 64 := by
  obtain ⟨i', consumed', r', hrun, hle, hr⟩ :=
    middleSlices_zero (i := i + 1) (fun j hj => h j hj) width (6 - b) (width - (6 - b))
      ((slice msg i >>> (b + 2)).setWidth 64) (Nat.sub_le _ _)
  rw [crossingField, hrun]
  simp only
  split_ifs
  · have hlast : (slice msg i' <<< (6 - r')) >>> (6 - r' + 2) = 0 := by
      have hzero := h i' hle
      apply BitVec.eq_of_getLsbD_eq
      intro j hj
      have hbit := congrArg (BitVec.getLsbD · j) hzero
      simp only [BitVec.getLsbD_ushiftRight, BitVec.getLsbD_shiftLeft] at hbit ⊢
      rw [show 6 - r' + 2 + j - (6 - r') = 2 + j by omega, hbit]
      simp
    rw [hlast, shl64]
    simp
  · rfl

end

theorem parseSrc_wideSource {n : ℕ} (hn : 6 ≤ n) (eom : Bool) :
    ∃ eom', parseSrc { atMessage n (wideSource (n / 6 - 1)) with bitIndex := 6, eom := eom } =
      .ok 16 { atMessage n (wideSource (n / 6 - 1)) with bitIndex := 6 + n, eom := eom' } := by
  have hlen := length_wideSource (n / 6 - 1)
  set msg := wideSource (n / 6 - 1) with hmsg
  have hfirst : slice msg 1 = 0x40 := rfl
  have hslices : ¬ msg.length * 6 ≤ 6 + n := by omega
  have hget : ∀ s : SliceFileParser, s.srcbits = n → parseSrc s = (do
      let tmp ← parseFixedField n
      return tmp.setWidth 8 : ParseM (BitVec 8)) s := by
    rintro s rfl
    change (if 0 < s.srcbits then _ else _ : ParseM (BitVec 8)) s = _
    rw [if_pos (by omega)]
  rw [hget _ rfl, bind_run, parseFixedField, if_neg (by omega)]
  simp only [atMessage, hslices, if_false, Nat.reduceMod, Nat.reduceDiv, Nat.zero_add]
  by_cases hcross : 6 < n
  · have hval : (crossingField msg 1 0 n).2 = (slice msg 1 >>> (0 + 2)).setWidth 64 :=
      crossingField_zero (fun j hj => slice_wideSource (n / 6 - 1) hj) 0 n
    rw [hfirst] at hval
    simp only [hcross, if_true, hval]
    exact ⟨_, rfl⟩
  · obtain rfl : n = 6 := by omega
    simp only [hcross, if_false, insideField, hfirst]
    exact ⟨_, rfl⟩

theorem parseVarField_wideSource {n : ℕ} (hn : 6 ≤ n) (eom : Bool) :
    ∃ field bitIndex, parseVarField
      { atMessage n (wideSource (n / 6 - 1)) with bitIndex := 6 + n, eom := eom } =
      .ok field
        { atMessage n (wideSource (n / 6 - 1)) with bitIndex := bitIndex, eom := true } := by
  have hlen := length_wideSource (n / 6 - 1)
  have hlast := slice_wideSource_last (n / 6 - 1)
  have hi : (6 + n) / 6 = n / 6 - 1 + 2 := by omega
  have hleft : n / 6 - 1 + 3 - 1 - (n / 6 - 1 + 2) = 0 := by omega
  have hroom : ¬ n / 6 - 1 + 3 ≤ n / 6 - 1 + 2 := by omega
  have hmark : mseo (wideSource (n / 6 - 1)) (n / 6 - 1 + 2) = MSEO_END := by rw [mseo, hlast]; rfl
  have hwide : ¬ 64 < 6 - (6 + n) % 6 := by omega
  simp only [parseVarField, atMessage, hlen, hi, hleft, hroom, if_false, varSlices, hmark,
    hwide, false_and, show MSEO_END ≠ MSEO_NORMAL by decide]
  exact ⟨_, _, by rw [show (MSEO_END == MSEO_END) = true by decide, Bool.or_true]⟩

theorem contentOf_wideSource {n : ℕ} (hn : 6 ≤ n) :
    ∃ c, contentOf n (wideSource (n / 6 - 1)) = some c ∧ c.coreId = 16 := by
  have hlen := length_wideSource (n / 6 - 1)
  have hfirst : slice (wideSource (n / 6 - 1)) 0 = 0x0c := rfl
  have hcode : codeOf (atMessage n (wideSource (n / 6 - 1))).msg = .directBranch := by
    change codeOf (wideSource (n / 6 - 1)) = .directBranch
    rw [codeOf, insideField, hfirst]
    decide
  have hrun := parseTraceMsg_code (atMessage n (wideSource (n / 6 - 1))) rfl rfl
    (by change 2 ≤ (wideSource (n / 6 - 1)).length; omega)
  rw [hcode] at hrun
  obtain ⟨eom, hsrc⟩ := parseSrc_wideSource hn (mseo (wideSource (n / 6 - 1)) 0 == MSEO_END)
  obtain ⟨⟨i_cnt, w⟩, bitIndex, hvar⟩ := parseVarField_wideSource hn eom
  have hts : ∀ s : SliceFileParser, s.eom = true → parseTimestamp s = .ok (none, 0) s := by
    intro s heom
    change (if s.eom = true then _ else _ : ParseM (Option TIMESTAMP × ℕ)) s = _
    rw [if_pos heom]
    rfl
  have hbody : (do
      let field ← parseVarField
      return (.directBranch (toInt32 field.1), field.2, 0) : ParseM (MessageBody × ℕ × ℕ))
        { atMessage n (wideSource (n / 6 - 1)) with bitIndex := 6 + n, eom := eom } =
      .ok (.directBranch (toInt32 i_cnt), w, 0)
        { atMessage n (wideSource (n / 6 - 1)) with bitIndex := bitIndex, eom := true } :=
          bind_ok hvar
  have hparse := hrun.trans (parseMessage_ok hsrc hbody (hts _ rfl))
  rw [contentOf, hparse]
  exact ⟨_, rfl, rfl⟩

/-! ### All values of `srcbits` -/

theorem readMsgs_single {srcBits : ℤ} {msg : List Byte} {c : Content} (hmsg : Framed msg)
    (hcontent : contentOf srcBits.toNat msg = some c) (h : CoreIdsInRange srcBits) :
    c.coreId.toNat < DQR_MAXCORES ∧ (c.coreId.toNat : ℤ) < itcPrintCores srcBits := by
  have hat : AtMessages srcBits.toNat [msg] (parserFor srcBits msg) {} := by
    refine ⟨rfl, rfl, rfl, ?_, rfl⟩
    simp [parserFor, SliceFileParser.init]
  obtain ⟨hdelivered, hrc, -, -⟩ := readNextTraceMsg_framed NexusMessage.init hmsg hat
  have hok := hrc.mpr (by rw [hcontent]; rfl)
  have hrange := h msg NexusMessage.init 1 _ List.mem_cons_self hok
  rw [hcontent, ReadResult.delivered] at hdelivered
  split_ifs at hdelivered
  all_goals
    rw [← Option.some.inj hdelivered]
    exact hrange

/-- As long as the shift does not reach the sign bit, there is a core, and room for all that four
bits can name. -/
theorem two_pow_le_itcPrintCores {srcBits : ℤ} (hwidth : srcBits ≤ 4)
    (hneg : srcBits < 0 → srcBits % 32 ≠ 31) : (2 : ℤ) ^ srcBits.toNat ≤ itcPrintCores srcBits := by
  have hsmall : ∀ r < 5, (2 : ℤ) ^ r ≤ (intBit r).toInt := by decide
  have hsome : ∀ r < 31, 1 ≤ (intBit r).toInt := by decide
  rw [itcPrintCores]
  by_cases h0 : srcBits < 0
  · have hmod := hneg h0
    rw [show srcBits.toNat = 0 by omega]
    exact hsome _ (by omega)
  · rw [show (srcBits % 32).toNat = srcBits.toNat by omega]
    exact hsmall _ (by omega)

theorem coreIdsInRange_of_parseSrc {srcBits : ℤ}
    (hsrc : Leaves (AtSrc srcBits.toNat) parseSrc
      (fun coreId _ => coreId.toNat < DQR_MAXCORES ∧ (coreId.toNat : ℤ) < itcPrintCores srcBits)
      (fun _ _ => True)) : CoreIdsInRange srcBits := by
  have hstep : ∀ (s : SliceFileParser) (analytics : Analytics) (nm : NexusMessage), s.srcbits =
      srcBits.toNat → ((s.readNextTraceMsg analytics nm).rc = .ok →
        (s.readNextTraceMsg analytics nm).nm.core < DQR_MAXCORES ∧
          ((s.readNextTraceMsg analytics nm).nm.core : ℤ) < itcPrintCores srcBits) ∧
        (s.readNextTraceMsg analytics nm).parser.srcbits = srcBits.toNat := by
    intro s analytics nm hs
    obtain ⟨hkeeps, hparsed⟩ := readNextTraceMsg_parsed s analytics nm
    refine ⟨fun hok => ?_, hkeeps.trans hs⟩
    obtain ⟨s₁, m, s₂, hstarts, hrun, hcore⟩ := hparsed hok
    rw [hs] at hstarts
    have hrange := (leaves_parseTraceMsg_coreId hsrc).of_ok hstarts hrun
    rw [NexusMessage.core, hcore]
    exact hrange
  intro file nm n
  have hstart : (parserFor srcBits file).srcbits = srcBits.toNat := rfl
  exact forall_readMsgs hstep n hstart {} nm

/-- The core ids of all files are in range exactly for source fields that no more than 16 cores can
fill, or that are too long for any message. -/
theorem coreIdsInRange_iff (srcBits : ℤ) :
    CoreIdsInRange srcBits ↔ (srcBits ≤ 4 ∨ 378 ≤ srcBits) ∧ (srcBits < 0 → srcBits % 32 ≠ 31) := by
  constructor
  · intro h
    refine ⟨?_, fun hneg hmod => ?_⟩
    · by_contra hwide
      by_cases h5 : srcBits = 5
      · subst h5
        have hmsg : Framed (0x0c :: ([] ++ [0x43])) :=
          .mk (by decide) (by decide) (List.forall_mem_nil _) (by decide) (by decide)
        have hrange := readMsgs_single hmsg (c := ⟨16, none, .directBranch 0⟩) (by decide) h
        exact absurd hrange.1 (by decide)
      · obtain ⟨c, hcontent, hcore⟩ := contentOf_wideSource (n := srcBits.toNat) (by omega)
        have hrange := readMsgs_single (framed_wideSource (by omega)) hcontent h
        rw [hcore] at hrange
        exact absurd hrange.1 (by decide)
    · have hmsg : Framed (0x0c :: ([] ++ [0x03])) :=
        .mk (by decide) (by decide) (List.forall_mem_nil _) (by decide) (by decide)
      have hzero : srcBits.toNat = 0 := by omega
      have hrange :=
        readMsgs_single hmsg (c := ⟨0, none, .directBranch 0⟩) (by rw [hzero]; decide) h
      rw [itcPrintCores, hmod] at hrange
      exact absurd hrange.2 (by decide)
  · rintro ⟨hwidth, hneg⟩
    refine coreIdsInRange_of_parseSrc ?_
    by_cases hlarge : 378 ≤ srcBits
    · exact (leaves_parseSrc_large (by omega)).weaken (fun _ h => h) (fun _ _ => False.elim)
        fun _ _ h => h
    · refine (leaves_parseSrc_small (n := srcBits.toNat) (by omega)).weaken (fun _ h => h)
        (fun coreId _ h => ?_) fun _ _ h => h
      have hcores := two_pow_le_itcPrintCores (by omega) hneg
      have hmax : 2 ^ srcBits.toNat ≤ 2 ^ 4 := Nat.pow_le_pow_right (by decide) (by omega)
      have hlt : (coreId.toNat : ℤ) < 2 ^ srcBits.toNat := by exact_mod_cast h
      exact ⟨h.trans_le hmax, Int.lt_of_lt_of_le hlt hcores⟩

/-- A core with the id 16. -/
theorem not_coreIdsInRange_five :
    ((readMsgs 1 (parserFor 5 [0x0c, 0x43]) {} NexusMessage.init).map fun r => (r.rc, r.nm.core)) =
    [(.ok, 16)] ∧
      ¬ CoreIdsInRange 5 := by
  have hrun : ((readMsgs 1 (parserFor 5 [0x0c, 0x43]) {} NexusMessage.init).map fun r =>
      (r.rc, r.nm.core)) = [(.ok, 16)] := by decide +kernel
  refine ⟨hrun, fun h => ?_⟩
  have hmsg : Framed (0x0c :: ([] ++ [0x43])) :=
    .mk (by decide) (by decide) (List.forall_mem_nil _) (by decide) (by decide)
  have hrange := readMsgs_single hmsg (c := ⟨16, none, .directBranch 0⟩) (by decide) h
  exact absurd hrange.1 (by decide)

end TraceDecoder
