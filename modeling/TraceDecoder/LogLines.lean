import TraceDecoder.SimulatorFile
import TraceDecoder.SimulatorFormats

/-!
# What the lines of a simulator log say

A line of a log is a comment, the value of a register or the record of an instruction, which has the
core, the address and the word where the format has them. The parser accepts these lines and no
others, and reads from each what it says.
-/

namespace TraceDecoder

open CString Scan

namespace LogLine

open Format (blanks digitAhead number value flagOf any lit chain)

def begins : Format := chain [blanks, lit ['C'], blanks, digitAhead]

def fieldsOf (valid : Bool) (pc : ADDRESS) : List Format :=
  [lit ['['], flagOf valid, lit [']'], blanks, lit "pc=[".toList, value 16 pc, lit [']'], operand,
    operand, operand]

def encodingOf (inst : BitVec 64) : List Format :=
  [blanks, lit "inst=[".toList, value 16 inst, lit [']'], blanks, lit "DASM(".toList, number 16,
    lit [')'], blanks]

/-- An instruction with its values. One character stands between the operands and the word. -/
def instructionOf (valid : Bool) (pc : ADDRESS) (inst : BitVec 64) : Format :=
  chain (fieldsOf valid pc ++ any :: encodingOf inst)

/-- What a line says: the record of an instruction that is valid, or nothing. -/
inductive Says (text : List Char) : Option LogRecord → Prop
  | comment (h : ∀ s, ¬ begins text s) : Says text none
  | register {s t u} (hcore : core text s) (hcounter : counter s t) (hregister : vrf t u ∨
    frf t u) : Says text none
  | instruction {s t u valid pc inst} (hcore : core text s) (hcounter : counter s t)
      (hinstruction : instructionOf valid pc inst t u) :
      Says text (if valid then some ⟨coreId text, pc, inst.setWidth 32⟩ else none)

theorem exists_fieldsOf {s t : List Char} (h : chain fields s t) :
    ∃ valid pc, chain (fieldsOf valid pc) s t := by
  obtain ⟨u₁, h₁, u₂, hflag, u₃, h₃, u₄, h₄, u₅, h₅, u₆, hnumber, hrest⟩ := h
  have hvalid : ∃ valid, flagOf valid u₁ u₂ := hflag.elim (fun h => ⟨false, h⟩) fun h => ⟨true, h⟩
  obtain ⟨valid, hvalid⟩ := hvalid
  exact ⟨valid, _, u₁, h₁, u₂, hvalid, u₃, h₃, u₄, h₄, u₅, h₅, u₆, ⟨hnumber, rfl⟩, hrest⟩

theorem exists_encodingOf {s t : List Char} (h : chain encoding s t) :
    ∃ inst, chain (encodingOf inst) s t := by
  obtain ⟨u₁, h₁, u₂, h₂, u₃, hnumber, hrest⟩ := h
  exact ⟨_, u₁, h₁, u₂, h₂, u₃, ⟨hnumber, rfl⟩, hrest⟩

theorem peek_of_instructionOf {valid : Bool} {pc : ADDRESS} {inst : BitVec 64} {s t : List Char}
    (h : instructionOf valid pc inst s t) : peek s = '[' := by
  obtain ⟨u, rfl, -⟩ := h
  rfl

end LogLine

namespace SRec

open LogLine

variable {srec : SRec}

/-! ### What the parser finds -/

/-- A record with the core, the valid flag and the address of another. -/
structure Keeps (a b : SRec) : Prop where
  coreId : b.coreId = a.coreId
  valid : b.valid = a.valid
  pc : b.pc = a.pc

theorem keeps_operand (srec : SRec) (numReads : ℕ) :
    Gives (operand srec numReads) fun x => Keeps srec x.1 := by
  refine .bind fun _ => .bind fun c => ?_
  by_cases hw : c = 'W'
  · rw [if_pos hw]
    exact .bind fun _ => .bind fun _ => .bind fun _ => .bind fun _ => .bind
      fun _ => .pure ⟨rfl, rfl, rfl⟩
  rw [if_neg hw]
  by_cases hr : c = 'R'
  · rw [if_pos hr]
    refine .bind fun _ => .bind fun _ => .pure ?_
    by_cases hfirst : numReads = 0
    · rw [if_pos hfirst]
      exact ⟨rfl, rfl, rfl⟩
    · rw [if_neg hfirst]
      exact ⟨rfl, rfl, rfl⟩
  · rw [if_neg hr]
    rintro s a t ⟨⟩

theorem obtains_operands (srec : SRec) (numReads : ℕ) :
    Obtains (operands 3 srec numReads)
      (Format.chain [LogLine.operand, LogLine.operand, LogLine.operand]) (Keeps srec) := by
  have hoperand (srec : SRec) (n : ℕ) : Obtains (SRec.operand srec n) LogLine.operand
      fun x => Keeps srec x.1 :=
    (denotes_operand srec n).obtains (keeps_operand srec n)
  refine (hoperand srec numReads).step fun a ha => (hoperand _ _).step fun b hb =>
    (hoperand _ _).step fun c hc => .pure ?_
  exact ⟨hc.coreId.trans (hb.coreId.trans ha.coreId), hc.valid.trans (hb.valid.trans ha.valid),
    hc.pc.trans (hb.pc.trans ha.pc)⟩

theorem obtains_fields (srec : SRec) (valid : Bool) (pc : ADDRESS) :
    Obtains (fields srec) (Format.chain (fieldsOf valid pc)) (Keeps { srec with valid, pc }) := by
  refine (Denotes.expect (by decide)).any.step fun _ _ => (Obtains.flag valid).step fun b hb =>
    (Denotes.expect (by decide)).any.step fun _ _ => Denotes.skipSpaces.any.step fun _ _ =>
    (Denotes.keyword _).any.step fun _ _ => (Obtains.number 16 pc).step fun v hv =>
    (Denotes.expect (by decide)).any.step fun _ _ => ?_
  subst hb hv
  exact obtains_operands _ 0

theorem obtains_encoding (srec : SRec) (inst : BitVec 64) :
    Obtains (encoding srec) (Format.chain (encodingOf inst))
      fun r => r.validLine = true ∧ r.inst = inst.setWidth 32 ∧ Keeps srec r := by
  refine Denotes.skipSpaces.any.step fun _ _ => (Denotes.keyword _).any.step fun _ _ =>
    (Obtains.number 16 inst).step fun v hv => (Denotes.expect (by decide)).any.step fun _ _ =>
    Denotes.skipSpaces.any.step fun _ _ => (Denotes.keyword _).any.step fun _ _ =>
    (Denotes.number 16).any.step fun _ _ => (Denotes.expect (by decide)).any.step fun _ _ =>
    Denotes.skipSpaces.any.step fun _ _ => .pure ⟨rfl, ?_, rfl, rfl, rfl⟩
  rw [hv]

theorem obtains_instruction (srec : SRec) (valid : Bool) (pc : ADDRESS) (inst : BitVec 64) :
    Obtains (instruction srec) (instructionOf valid pc inst)
      fun r => r.entry = if valid then some ⟨srec.coreId, pc, inst.setWidth 32⟩ else none := by
  refine (obtains_fields srec valid pc).append fun a ha => Obtains.pass.step fun _ _ => ?_
  rintro s t h
  obtain ⟨r, hr, hline, hinst, hkeeps⟩ := obtains_encoding a inst s t h
  refine ⟨r, hr, ?_⟩
  have hvalid : r.valid = valid := hkeeps.valid.trans ha.valid
  have hcore : r.coreId = srec.coreId := hkeeps.coreId.trans ha.coreId
  have hpc : r.pc = pc := hkeeps.pc.trans ha.pc
  simp only [SRec.entry, hline, hvalid, hinst, hcore, hpc, true_and]

theorem core_of_letter {s v : List Char} (hv : s.dropWhile (· = ' ') = 'C' :: v) :
    (SRec.core : Scan _) s =
      if IsDigit 10 (peek (v.dropWhile (· = ' '))) then
        (Scan.number 10 (v.dropWhile (· = ' '))).map fun r => (some (r.1.setWidth 8), r.2)
      else some (none, v.dropWhile (· = ' ')) := by
  simp only [SRec.core, Scan.bind_eq, Scanner.skipSpaces, Scanner.look, Scanner.expect,
    Scan.skipSpaces, Scan.look, Option.bind_some, hv, if_pos (show peek ('C' :: v) = 'C' from rfl)]
  simp only [Scan.expect, if_pos (show peek ('C' :: v) = 'C' from rfl), Option.bind_some,
    List.tail_cons]
  split_ifs
  · change (Scan.number 10 (v.dropWhile (· = ' '))).bind
      (fun r => some (some (r.1.setWidth 8), r.2)) = _
    cases Scan.number 10 (v.dropWhile (· = ' ')) <;> rfl
  · rfl

/-- The comments are the lines that do not begin as the others do. -/
theorem core_eq_none_iff {s : List Char} : (∃ t, (SRec.core : Scan _) s = some (none, t)) ↔
    ∀ t, ¬ begins s t := by
  by_cases hc : peek (s.dropWhile (· = ' ')) = 'C'
  · obtain ⟨v, hv⟩ : ∃ v, s.dropWhile (· = ' ') = 'C' :: v := by
      cases hdrop : s.dropWhile (· = ' ') with
      | nil => rw [hdrop] at hc; cases hc
      | cons d v => rw [hdrop] at hc; exact ⟨v, by rw [show d = 'C' from hc]⟩
    rw [core_of_letter hv]
    by_cases hdigit : IsDigit 10 (peek (v.dropWhile (· = ' ')))
    · rw [if_pos hdigit]
      refine iff_of_false ?_ fun h => h _ ⟨_, rfl, v, hv, _, rfl, _, ⟨rfl, hdigit⟩, rfl⟩
      rintro ⟨t, h⟩
      obtain ⟨r, -, hr⟩ := Option.map_eq_some_iff.mp h
      cases hr
    · rw [if_neg hdigit]
      refine iff_of_true ⟨_, rfl⟩ ?_
      rintro t ⟨_, rfl, v', hv', _, rfl, _, ⟨rfl, hdigit'⟩, rfl⟩
      obtain rfl : v = v' := (List.cons.inj (hv.symm.trans hv')).2
      exact hdigit hdigit'
  · refine iff_of_true ⟨s.dropWhile (· = ' '), ?_⟩ ?_
    · exact congrFun (if_neg hc) (s.dropWhile (· = ' '))
    · rintro t ⟨_, rfl, v, hv, -⟩
      rw [hv] at hc
      exact hc rfl

/-! ### Lines -/

variable {s t u text : List Char} {r : SRec} {e : Option LogRecord}

theorem record_of_vrf (srec : SRec) (h : LogLine.vrf t u) :
    ∃ r, (record srec : Scan _) t = some (r, u) ∧ r.valid = srec.valid := by
  have hkeeps : Gives (SRec.vrf srec) fun r => r.valid = srec.valid :=
    .bind fun _ => .bind fun _ => .bind fun _ => .bind fun _ => .bind fun _ => .bind fun _ => .bind
        fun _ =>
      .bind fun _ => .bind fun _ => .bind fun _ => .bind fun _ => .bind fun _ => .bind
        fun _ => .bind fun _ => .pure rfl
  obtain ⟨r, hr, hvalid⟩ := (denotes_vrf srec).obtains hkeeps t u h
  refine ⟨r, ?_, hvalid⟩
  rw [← hr]
  exact congrFun (if_pos (isPrefixOf_of_lit h)) t

theorem record_of_frf (srec : SRec) (h : LogLine.frf t u) :
    ∃ r, (record srec : Scan _) t = some (r, u) ∧ r.valid = srec.valid := by
  have hkeeps : Gives (SRec.frf srec) fun r => r.valid = srec.valid :=
    .bind fun _ => .bind fun _ => .bind fun _ => .bind fun _ => .bind fun _ => .bind fun _ => .bind
        fun _ =>
      .bind fun _ => .bind fun _ => .bind fun _ => .bind fun _ => .pure rfl
  obtain ⟨r, hr, hvalid⟩ := (denotes_frf srec).obtains hkeeps t u h
  have hvrf : ¬ "vrf".toList.isPrefixOf t = true := by
    obtain ⟨v, rfl, -⟩ := h
    exact Bool.false_ne_true
  refine ⟨r, ?_, hvalid⟩
  rw [← hr]
  exact (congrFun (if_neg hvrf) t).trans (congrFun (if_pos (isPrefixOf_of_lit h)) t)

theorem record_of_instruction (srec : SRec) {valid : Bool} {pc : ADDRESS} {inst : BitVec 64}
    (h : instructionOf valid pc inst t u) : ∃ r, (record srec : Scan _) t = some (r, u) ∧
      r.entry = if valid then some ⟨srec.coreId, pc, inst.setWidth 32⟩ else none := by
  have hpeek := peek_of_instructionOf h
  obtain ⟨r, hr, hentry⟩ := obtains_instruction srec valid pc inst t u h
  refine ⟨r, ?_, hentry⟩
  rw [← hr]
  have hvrf : "vrf".toList.isPrefixOf t = false := not_startsWith hpeek (by decide)
  have hfrf : "frf".toList.isPrefixOf t = false := not_startsWith hpeek (by decide)
  exact (congrFun (if_neg (Bool.not_eq_true _ ▸ hvrf)) t).trans
    (congrFun (if_neg (Bool.not_eq_true _ ▸ hfrf)) t)

theorem parses_of_record (hcore : LogLine.core text s) (hcounter : LogLine.counter s t)
    (hrecord : ∀ srec : SRec, srec.coreId = LogLine.coreId text → srec.valid = false →
      ∃ r, (record srec : Scan _) t = some (r, u) ∧ r.entry = e) :
        ∃ r, Parses text r ∧ r.entry = e := by
  have hkeeps : Gives (SRec.counter { ({} : SRec) with coreId := LogLine.coreId text })
      fun r => r.coreId = LogLine.coreId text ∧ r.valid = false :=
    .bind fun _ => .bind fun _ => .bind fun _ => .bind fun _ => .pure ⟨rfl, rfl⟩
  obtain ⟨a, ha, hcoreId, hvalid⟩ := (denotes_counter _).obtains hkeeps s t hcounter
  obtain ⟨r, hr, hentry⟩ := hrecord a hcoreId hvalid
  have hbody : (body { ({} : SRec) with coreId := LogLine.coreId text } : Scan _) s =
      some (r, u) := by
    rw [body, Scan.bind_eq, ha]
    exact hr
  refine ⟨r, ?_, hentry⟩
  rw [Parses, parseLine, scanLine, Scan.bind_eq, core_eq_some.mpr ⟨hcore, rfl⟩, Option.bind_some]
  exact congrArg (Option.map Prod.fst) ((congrFun (if_neg fun h => h.1 rfl) s).trans hbody)

theorem exists_parses (h : LogLine.Says text e) : ∃ r, Parses text r ∧ r.entry = e := by
  cases h with
  | comment hcomment =>
    obtain ⟨t, ht⟩ := core_eq_none_iff.mpr hcomment
    refine ⟨{}, ?_, rfl⟩
    rw [Parses, parseLine, scanLine, Scan.bind_eq, ht]
    rfl
  | @register _ _ u hcore hcounter hregister =>
    refine parses_of_record (u := u) hcore hcounter fun srec _ hvalid => ?_
    have hnone {r : SRec} (h : r.valid = srec.valid) : r.entry = none :=
      entry_of_not_valid (h.trans hvalid)
    rcases hregister with hvrf | hfrf
    · obtain ⟨r, hr, hkept⟩ := record_of_vrf srec hvrf
      exact ⟨r, hr, hnone hkept⟩
    · obtain ⟨r, hr, hkept⟩ := record_of_frf srec hfrf
      exact ⟨r, hr, hnone hkept⟩
  | @instruction _ _ u _ _ _ hcore hcounter hinstruction =>
    refine parses_of_record (u := u) hcore hcounter fun srec hcoreId _ => ?_
    rw [← hcoreId]
    exact record_of_instruction srec hinstruction

/-- **The lines without a syntax error** are those that say something, and that is what is read. -/
theorem says_iff : LogLine.Says text e ↔ ∃ r, Parses text r ∧ r.entry = e := by
  refine ⟨exists_parses, ?_⟩
  rintro ⟨r, hparses, rfl⟩
  have hcontent : ∃ e, LogLine.Says text e := by
    obtain ⟨⟨_, u⟩, hrun, rfl⟩ := Option.map_eq_some_iff.mp hparses
    have hcore := hrun
    rw [parseLine, scanLine, Scan.bind_eq] at hcore
    obtain ⟨⟨found, s⟩, hcore, hrest⟩ := Option.bind_eq_some_iff.mp hcore
    cases found with
    | none => exact ⟨none, .comment (core_eq_none_iff.mp ⟨s, hcore⟩)⟩
    | some id =>
      obtain ⟨hline, rfl⟩ := core_eq_some.mp hcore
      have hbody := (congrFun (if_neg fun h => h.1 rfl) s).symm.trans hrest
      rw [body, Scan.bind_eq] at hbody
      obtain ⟨⟨a, t⟩, hcounter, hrecord⟩ := Option.bind_eq_some_iff.mp hbody
      have hdenotes := (denotes_counter _ s t).mp ⟨a, hcounter⟩
      rcases record_eq_some hrecord with hvrf | hfrf | ⟨c, v, hfields, hencoding⟩
      · exact ⟨_, .register hline hdenotes (.inl hvrf)⟩
      · exact ⟨_, .register hline hdenotes (.inr hfrf)⟩
      · obtain ⟨valid, pc, hfields⟩ := exists_fieldsOf hfields
        obtain ⟨inst, hencoding⟩ := exists_encodingOf hencoding
        have hinstruction : instructionOf valid pc inst t u :=
          Format.chain_append.mpr ⟨c :: v, hfields, v, ⟨c, rfl⟩, hencoding⟩
        exact ⟨_, .instruction hline hdenotes hinstruction⟩
  obtain ⟨e, hcontent⟩ := hcontent
  obtain ⟨r', hr', rfl⟩ := exists_parses hcontent
  rwa [Option.some.inj (hparses.symm.trans hr')]

theorem says_unique {e' : Option LogRecord} (h : LogLine.Says text e) (h' : LogLine.Says text e') :
    e = e' := by
  obtain ⟨r, hr, rfl⟩ := exists_parses h
  obtain ⟨r', hr', rfl⟩ := exists_parses h'
  rw [Option.some.inj (hr.symm.trans hr')]

instance (text : List Char) (e : Option LogRecord) : Decidable (LogLine.Says text e) :=
  decidable_of_iff (((parseLine 0 none {} text).map fun r => r.1.entry) = some e) <| by
    rw [says_iff]
    simp only [Parses, Option.map_eq_some_iff, exists_exists_and_eq_and]

end SRec

/-! ### Logs -/

def LogSays (log : List (List Char)) (es : List (Option LogRecord)) : Prop :=
  List.Forall₂ (fun text e => LogLine.Says (upToReturn text) e) log es

instance (log : List (List Char)) (es : List (Option LogRecord)) : Decidable (LogSays log es) :=
  inferInstanceAs (Decidable (List.Forall₂ _ log es))

namespace Simulator

variable {log : List (List Char)} {es : List (Option LogRecord)}

/-- In the buffer, a null character stands behind what a line says. -/
theorem exists_strip (text rest : List Char) :
    ∃ more, text.map strip ++ '\x00' :: rest = upToReturn text ++ '\x00' :: more := by
  induction text with
  | nil => exact ⟨rest, rfl⟩
  | cons c text ih =>
    by_cases hc : c = '\r' ∨ c = '\n'
    · refine ⟨text.map strip ++ '\x00' :: rest, ?_⟩
      have hstop : upToReturn (c :: text) = [] :=
        List.takeWhile_cons_of_neg (by simpa [imp_iff_not_or] using hc)
      rw [List.map_cons, strip, if_pos hc, hstop]
      rfl
    · obtain ⟨more, hmore⟩ := ih
      rw [not_or] at hc
      refine ⟨more, ?_⟩
      rw [List.map_cons, strip, if_neg (not_or.mpr hc), upToReturn_cons hc.1 hc.2, List.cons_append,
        hmore]
      rfl

theorem says_pointers (h : LogSays log es) : List.Forall₂ SRec.Says (pointers log) es := by
  induction h with
  | nil => exact .nil
  | @cons text e log es hcontent _ ih =>
    obtain ⟨r, hr, rfl⟩ := SRec.exists_parses hcontent
    obtain ⟨more, hmore⟩ := exists_strip text ((fileOf log).map strip)
    refine .cons ?_ ih
    rw [hmore]
    exact hr.inBuffer more

/-- The first line says the same without its first character, which the reading drops. -/
def FirstLineKept (log : List (List Char)) : Prop :=
  ∀ text ∈ log.head?, ∀ e, LogLine.Says (upToReturn text) e → LogLine.Says (upToReturn text.tail) e

theorem says_linesRead (h : LogSays log es) (hfirst : FirstLineKept log) :
    ∃ es', LogSays (linesRead log) es' ∧ es'.filterMap id = es.filterMap id := by
  cases h with
  | nil => exact ⟨[], .nil, rfl⟩
  | @cons text e log es hcontent hrest =>
    cases text with
    | nil =>
      obtain ⟨r, hr, rfl⟩ := SRec.exists_parses hcontent
      cases hr
      exact ⟨es, hrest, rfl⟩
    | cons c text => exact ⟨e :: es, .cons (hfirst _ rfl e hcontent) hrest, rfl⟩

end Simulator

end TraceDecoder
