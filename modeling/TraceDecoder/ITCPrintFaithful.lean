import TraceDecoder.ITCPrintDelivery

/-!
# Text is a faithful queue

Runs of one core that prints words with a terminator at their end at most and gets and flushes
strings.
-/

namespace TraceDecoder

namespace ITCPrint

variable (sprintf : String → List PrintfArg → List Byte)

def outcomes (p : ITCPrint) : List Op → Option (List (Option Printed) × ITCPrint)
  | [] => some ([], p)
  | op :: ops => (p.call sprintf op).bind fun r => (outcomes r.2 ops).map fun rs =>
    (r.1 :: rs.1, rs.2)

def textOf (printed : Option Printed) : List Byte := (printed.map Printed.text).getD []

def texts (results : List (Option Printed)) : List Byte := results.flatMap textOf

def bytesOf : Op → List Byte
  | .print _ addr data _ => dataBytes addr data
  | _ => []

/-- Calls of one core: prints on the plain path of words with a terminator at their end at most,
where there is room for nine characters, and gets and flushes of strings. -/
def TextCall (core : ℕ) : ITCPrint × Op → Prop
  | (p, .print c addr data _) =>
    c = core ∧ p.printPath sprintf c addr data = .data (dataBytes addr data) ∧
      (∀ c ∈ (dataBytes addr data).dropLast, isTerminator c = false) ∧
        9 ≤ (p.queue core).roomInITCPrintQ p.buffSize
  | (_, .getStr c) | (_, .flushStr c) => c = core
  | (_, .getMsg ..) | (_, .flushMsg ..) => False

/-- A flush does not take the message in progress when its record points to another one. -/
def FlushesLinked : ITCPrint × Op → Prop
  | (p, .flushStr core) => (p.queue core).numMsgs = 0 → (p.queue core).pbo ≠ (p.queue core).pbi →
      ∀ h ∈ p.lists.tsList core, (p.lists.record h).next = some h
  | _ => True

/-- All calls return. What they hand out and what flushes hand out then is what has been written,
and a get ends at a terminator. -/
def FaithfulText (p : ITCPrint) (core : ℕ) (ops : List Op) : Prop :=
  ∃ results p', p.outcomes sprintf ops = some (results, p') ∧
    (∃ k rest p'', p'.outcomes sprintf (List.replicate k (.flushStr core)) = some (rest, p'') ∧
      p''.flushITCPrintStr core = some (none, p'') ∧ texts results ++ texts rest =
        (ops.flatMap bytesOf).filter (· ≠ 0x00)) ∧
    ∀ (i : ℕ) (printed : Printed), ops[i]? = some (.getStr core) →
      results[i]? = some (some printed) → ∃ v c, isTerminator c ∧
        v ++ [c] <+: (ops.take i).flatMap bytesOf ∧ texts (results.take (i + 1)) =
        (v ++ [c]).filter (· ≠ 0x00)

variable {sprintf} {p : ITCPrint} {core : ℕ} {t : TextQueue} {xs F : List ℕ} {w out : List Byte}

theorem dataBytes_eq (addr data : BitVec 32) :
    ∃ cs c, dataBytes addr data = cs ++ [c] ∧ (dataBytes addr data).length ≤ 4 := by
  have hlength : (dataBytes addr data).length = 4 - (addr &&& 0x03).toNat := by
    rw [dataBytes, List.length_map, List.length_range]
  have hmask : (addr &&& 0x03).toNat ≤ 3 := by
    rw [BitVec.toNat_and]
    exact Nat.and_le_right
  rcases List.eq_nil_or_concat' (dataBytes addr data) with hnil | ⟨cs, c, hcs⟩
  · rw [hnil, List.length_nil] at hlength
    omega
  · exact ⟨cs, c, hcs, by omega⟩

theorem Carries.call {op : Op} (h : p.Carries core t xs F) (hcore : core < p.numCores)
    (haccounts : t.Accounts w out)
    (hcall : TextCall sprintf core (p, op)) (hlinked : FlushesLinked (p, op)) :
    ∃ r t' xs' F', p.call sprintf op = some r ∧ r.2.Carries core t' xs' F' ∧
      r.2.numCores = p.numCores ∧
      t'.Accounts (w ++ bytesOf op) (out ++ textOf r.1) ∧
        (op = .getStr core → ∀ printed, r.1 = some printed →
        ∃ v c, isTerminator c ∧ v ++ [c] <+: w ∧ out ++ printed.text = (v ++ [c]).filter
            (· ≠ 0x00)) := by
  have hget : ∀ line lines, t.lines = line :: lines → ∃ r t' xs' F', p.getITCPrintStr core =
      some r ∧ r.2.Carries core t' xs' F' ∧ r.2.numCores = p.numCores ∧
        t'.Accounts (w ++ []) (out ++ textOf r.1) ∧ ∀ printed, r.1 = some printed →
          ∃ v c, isTerminator c ∧ v ++ [c] <+: w ∧ out ++ printed.text = (v ++ [c]).filter
          (· ≠ 0x00) := by
    intro line lines hlines
    obtain ⟨printed, p', xs', F', hrun, htext, hcarries, hcores⟩ := h.getITCPrintStr hcore hlines
    obtain ⟨haccounts', hends⟩ := haccounts.take hlines
    refine ⟨(some printed, p'), ⟨lines, t.rest⟩, xs', F', hrun, hcarries, hcores, ?_,
      fun printed' hprinted => ?_⟩
    · rw [List.append_nil, textOf, Option.map_some, Option.getD_some, htext]
      exact haccounts'
    · rw [← Option.some.inj hprinted, htext]
      exact hends
  have hstay : t.Accounts (w ++ []) (out ++ textOf none) := by
    rw [List.append_nil, textOf, Option.map_none, Option.getD_none, List.append_nil]
    exact haccounts
  cases op with
  | print c addr data tstamp =>
    obtain ⟨rfl, hpath, hlast, hroom⟩ := hcall
    obtain ⟨cs, e, hbytes, hlength⟩ := dataBytes_eq addr data
    rw [hbytes, List.dropLast_concat] at hlast
    rw [hbytes] at hpath hlength
    obtain ⟨p', xs', F', hrun, hcarries, hcores⟩ := h.printData hlast e (by omega) tstamp
    refine ⟨(none, p'), t.write (cs ++ [e]), xs', F', ?_, hcarries, hcores, ?_,
      fun hop => by cases hop⟩
    · rw [call_print, hpath, afterPrint, hrun, Option.map_some]
    · rw [bytesOf, hbytes, textOf, Option.map_none, Option.getD_none, List.append_nil]
      exact haccounts.write _
  | getStr c =>
    obtain rfl : c = core := hcall
    cases hlines : t.lines with
    | nil =>
      obtain ⟨-, hmsgs⟩ := h.content_of_nil hlines
      refine ⟨(none, p), t, xs, F, ?_, h, rfl, hstay, fun _ printed hprinted => by cases hprinted⟩
      rw [ITCPrint.call, ITCPrint.getITCPrintStr, if_neg (Nat.not_le.mpr hcore)]
      dsimp only
      rw [if_neg (by omega)]
    | cons line lines =>
      obtain ⟨r, t', xs', F', hrun, hcarries, hcores, haccounts', hends⟩ := hget line lines hlines
      exact ⟨r, t', xs', F', hrun, hcarries, hcores, haccounts', fun _ => hends⟩
  | flushStr c =>
    obtain rfl : c = core := hcall
    cases hlines : t.lines with
    | nil =>
      by_cases hrest : t.rest = []
      · exact ⟨(none, p), t, xs, F, h.flush_empty hcore hlines hrest, h, rfl, hstay,
          fun hop => by cases hop⟩
      · obtain ⟨printed, p', x, hrun, htext, hsome, -, hcores, hcarries⟩ :=
          h.flush_rest hcore hlines hrest
        obtain ⟨-, hmsgs⟩ := h.content_of_nil hlines
        have hnext := hlinked hmsgs (mt (h.pbo_eq_pbi hlines).mp hrest) x hsome
        refine ⟨(some printed, p'), ⟨[], []⟩, [], x :: F, hrun, hcarries hnext, hcores,
          ⟨?_, fun ls hls hle => absurd (List.prefix_nil.mp hle) hls⟩, fun hop => by cases hop⟩
        have htotal := haccounts.total
        rw [hlines, List.flatten_nil, List.append_nil] at htotal
        rw [textOf, Option.map_some, Option.getD_some, htext]
        simp only [bytesOf, List.flatten_nil, List.append_nil]
        exact htotal
    | cons line lines =>
      obtain ⟨r, t', xs', F', hrun, hcarries, hcores, haccounts', -⟩ := hget line lines hlines
      have hmsgs : 0 < (p.queue c).numMsgs := by
        rw [h.numMsgs, hlines, List.length_cons]
        omega
      refine ⟨r, t', xs', F', ?_, hcarries, hcores, haccounts', fun hop => by cases hop⟩
      rw [ITCPrint.call, ITCPrint.flushITCPrintStr, if_neg (Nat.not_le.mpr hcore)]
      dsimp only
      rw [if_pos hmsgs, hrun]
  | getMsg => exact hcall.elim
  | flushMsg => exact hcall.elim

/-- A run keeps the text and the accounts, and every get of it ends at a terminator. -/
theorem Carries.run {ops : List Op} (h : p.Carries core t xs F) (hcore : core < p.numCores)
    (haccounts : t.Accounts w out)
    (hcalls : ∀ c ∈ p.calls sprintf ops, TextCall sprintf core c)
    (hlinked : ∀ c ∈ p.calls sprintf ops, FlushesLinked c) :
    ∃ results p' t' xs' F', p.outcomes sprintf ops = some (results, p') ∧
      p'.Carries core t' xs' F' ∧ p'.numCores = p.numCores ∧
      t'.Accounts (w ++ ops.flatMap bytesOf) (out ++ texts results) ∧
      ∀ (i : ℕ) (printed : Printed), ops[i]? = some (.getStr core) → results[i]? = some
        (some printed) → ∃ v c, isTerminator c ∧
        v ++ [c] <+: w ++ (ops.take i).flatMap bytesOf ∧ out ++ texts (results.take (i + 1)) =
          (v ++ [c]).filter (· ≠ 0x00) := by
  induction ops generalizing p t xs F w out with
  | nil =>
    refine ⟨[], p, t, xs, F, rfl, h, rfl, ?_, fun i printed hi => by simp at hi⟩
    rw [List.flatMap_nil, texts, List.flatMap_nil, List.append_nil, List.append_nil]
    exact haccounts
  | cons op ops ih =>
    rw [calls, List.forall_mem_cons] at hcalls hlinked
    obtain ⟨r, t₁, xs₁, F₁, hrun, hcarries, hcores, haccounts₁, hends⟩ :=
      h.call hcore haccounts hcalls.1 hlinked.1
    rw [hrun, Option.elim_some] at hcalls hlinked
    obtain ⟨results, p', t', xs', F', hrest, hcarries', hcores', haccounts', hgets⟩ :=
      ih hcarries (hcores ▸ hcore) haccounts₁ hcalls.2 hlinked.2
    refine ⟨r.1 :: results, p', t', xs', F', ?_, hcarries', hcores'.trans hcores, ?_,
      fun i printed hi hresult => ?_⟩
    · rw [outcomes, hrun, Option.bind_some, hrest, Option.map_some]
    · rw [List.flatMap_cons, texts, List.flatMap_cons, ← List.append_assoc, ← List.append_assoc]
      exact haccounts'
    · cases i with
      | zero =>
        obtain ⟨v, c, hc, hv, heq⟩ := hends (Option.some.inj hi) printed (Option.some.inj hresult)
        refine ⟨v, c, hc, ?_, ?_⟩
        · rw [List.take_zero, List.flatMap_nil, List.append_nil]
          exact hv
        · rw [List.take_succ_cons, List.take_zero, texts, List.flatMap_singleton,
            Option.some.inj hresult]
          exact heq
      | succ i =>
        obtain ⟨v, c, hc, hv, heq⟩ := hgets i printed hi hresult
        refine ⟨v, c, hc, ?_, ?_⟩
        · rw [List.take_succ_cons, List.flatMap_cons, ← List.append_assoc]
          exact hv
        · rw [List.take_succ_cons, texts, List.flatMap_cons, ← List.append_assoc]
          exact heq

variable (sprintf) in
theorem Carries.drain (h : p.Carries core t xs F) (hcore : core < p.numCores) :
    ∃ k results p', p.outcomes sprintf (List.replicate k (.flushStr core)) = some (results, p') ∧
      p'.flushITCPrintStr core = some (none, p') ∧ texts results = t.lines.flatten ++ t.rest := by
  generalize hlines : t.lines = lines
  induction lines generalizing p t xs F with
  | nil =>
    by_cases hrest : t.rest = []
    · refine ⟨0, [], p, rfl, h.flush_empty hcore hlines hrest, ?_⟩
      rw [hrest]
      rfl
    · obtain ⟨printed, p', x, hrun, htext, -, hdone, -⟩ := h.flush_rest hcore hlines hrest
      refine ⟨1, [some printed], p', ?_, hdone, ?_⟩
      · rw [List.replicate_one, outcomes, ITCPrint.call, hrun, Option.bind_some, outcomes,
          Option.map_some]
      · rw [texts, List.flatMap_singleton, textOf, Option.map_some, Option.getD_some, htext]
        rfl
  | cons line lines ih =>
    obtain ⟨printed, p₁, xs₁, F₁, hrun, htext, hcarries, hcores⟩ := h.getITCPrintStr hcore hlines
    have hmsgs : 0 < (p.queue core).numMsgs := by
      rw [h.numMsgs, hlines, List.length_cons]
      omega
    have hflush : p.call sprintf (.flushStr core) = some (some printed, p₁) := by
      rw [ITCPrint.call, ITCPrint.flushITCPrintStr, if_neg (Nat.not_le.mpr hcore)]
      dsimp only
      rw [if_pos hmsgs, hrun]
    obtain ⟨k, results, p', hrest, hdone, htexts⟩ := ih hcarries (hcores ▸ hcore) rfl
    refine ⟨k + 1, some printed :: results, p', ?_, hdone, ?_⟩
    · rw [List.replicate_succ, outcomes, hflush, Option.bind_some, hrest, Option.map_some]
    · rw [texts, List.flatMap_cons, textOf, Option.map_some, Option.getD_some, htext,
        List.flatten_cons, List.append_assoc, ← htexts]
      rfl

theorem carries_init (itcPrintOpts : BitVec 32) (numCores buffSize : ℤ) (channel : BitVec 32)
    (nlsStrings : Option (ℕ → NlString)) (memory : ℕ → ℕ → Byte) (core : ℕ) :
    (ITCPrint.init itcPrintOpts numCores buffSize channel nlsStrings memory).Carries core ⟨[], []⟩
    [] [] :=
  ⟨inRings_init itcPrintOpts numCores buffSize channel nlsStrings memory core,
    RingIndex.cells_self _ _ _, fun hne => absurd rfl hne, rfl,
      ⟨fun line hline => (by cases hline), List.not_mem_nil⟩,
      ⟨.inl rfl, rfl, .nil, fun r hr => (by cases hr)⟩, rfl⟩

/-- **Text is a faithful queue** in every run in which no flush takes a message in progress whose
record points to another. -/
theorem calls_faithfulText (sprintf : String → List PrintfArg → List Byte)
    (itcPrintOpts : BitVec 32) (numCores buffSize : ℤ)
    (channel : BitVec 32) (nlsStrings : Option (ℕ → NlString)) (memory : ℕ → ℕ → Byte) {core : ℕ}
    (ops : List Op)
    (hcore :
    core < (ITCPrint.init itcPrintOpts numCores buffSize channel nlsStrings memory).numCores)
    (hcalls : ∀ c ∈ (ITCPrint.init itcPrintOpts numCores buffSize channel nlsStrings memory).calls
      sprintf ops, TextCall sprintf core c)
    (hlinked : ∀ c ∈ (ITCPrint.init itcPrintOpts numCores buffSize channel nlsStrings memory).calls
      sprintf ops, FlushesLinked c) :
    (ITCPrint.init itcPrintOpts numCores buffSize channel nlsStrings memory).FaithfulText sprintf
      core ops := by
  have hempty : (⟨[], []⟩ : TextQueue).Accounts [] [] :=
    ⟨rfl, fun ls hls hle => absurd (List.prefix_nil.mp hle) hls⟩
  have hinit := carries_init itcPrintOpts numCores buffSize channel nlsStrings memory core
  obtain ⟨results, p', t', xs', F', hrun, hcarries, hcores, haccounts, hgets⟩ :=
    hinit.run hcore hempty hcalls hlinked
  obtain ⟨k, rest, p'', hdrain, hdone, htexts⟩ := hcarries.drain sprintf (hcores ▸ hcore)
  refine ⟨results, p', hrun, ⟨k, rest, p'', hdrain, hdone, ?_⟩, hgets⟩
  have htotal := haccounts.total
  rw [List.nil_append, List.nil_append, List.append_assoc, ← htexts] at htotal
  exact htotal

instance (sprintf : String → List PrintfArg → List Byte) (core : ℕ) : (c : ITCPrint × Op) →
    Decidable (TextCall sprintf core c)
  | (_, .print ..) => inferInstanceAs (Decidable (_ ∧ _))
  | (_, .getStr c) | (_, .flushStr c) => inferInstanceAs (Decidable (c = core))
  | (_, .getMsg ..) | (_, .flushMsg ..) => .isFalse id

instance : (c : ITCPrint × Op) → Decidable (FlushesLinked c)
  | (_, .flushStr _) => inferInstanceAs (Decidable (_ → _))
  | (_, .print ..) | (_, .getStr _) | (_, .getMsg ..) | (_, .flushMsg ..) => .isTrue trivial

/-- A word and the end of its line, read by a get, and a word behind it, read by a flush. -/
theorem calls_faithfulText_words : (ITCPrint.init ITC_OPT_PRINT 1 64 0 none fun _ _ =>
      0x00).FaithfulText (fun _ _ => []) 0
    [.print 0 0 0x64636261 0, .print 0 3 0x0a 1, .print 0 2 0x6665 2, .getStr 0, .flushStr 0] :=
  calls_faithfulText _ _ _ _ _ _ _ _ (by decide) (by decide +kernel) (by decide +kernel)

/-- Two lines and a message in progress, of which the lines are read before the message is flushed
and ended. -/
def ringOfLines : List Op :=
  [.print 0 3 0x0a 0, .print 0 3 0x0a 1, .print 0 3 0x78 2, .getStr 0, .getStr 0, .flushStr 0,
    .print 0 3 0x0a 3, .getStr 0]

/-- The last get follows a null pointer. -/
theorem not_faithfulText_lines : ¬ ∀ ops : List Op,
    (∀ c ∈ (ITCPrint.init ITC_OPT_PRINT 1 64 0 none fun _ _ => 0x00).calls (fun _ _ => []) ops,
      TextCall (fun _ _ => []) 0 c) →
      (ITCPrint.init ITC_OPT_PRINT 1 64 0 none fun _ _ => 0x00).FaithfulText
      (fun _ _ => []) 0 ops := by
  intro hall
  obtain ⟨results, p', hrun, -⟩ := hall ringOfLines (by decide +kernel)
  have hnone : ((ITCPrint.init ITC_OPT_PRINT 1 64 0 none fun _ _ => 0x00).outcomes (fun _ _ => [])
      ringOfLines).isSome = false := by
    decide +kernel
  rw [hrun] at hnone
  cases hnone

end ITCPrint

end TraceDecoder
